import LedgerWire.Proofs.Amm.Accounts
import LedgerWire.Proofs.Envelope
import LedgerWire.Proofs.Schema.Limits

/-!
# Calls of the exchange say what they were given

`ContractCall.Says` and `ProgramCall.Says` list the calls with what has to come out of their envelopes:
the method, the arguments by name or the accounts in their order and the instruction, and the size of
what is encoded. Identities and amounts are numbers of 128 bits and tokens have a spelling in UTF-8. A
call goes through unless its arguments are too long, and then all of this is read from it.
-/

namespace LedgerWire

open Schema

/-! ### Calls whose arguments are told in advance -/

namespace Config

variable {c : Config} {method : Text} {offered : Candidate} {s : Schema} {args : Value}
  {name body data : Bytes} {given : Spending} {gas deposit : Nat}

theorem encodeCall_of_writes (hs : Envelope.argsSchema (.text method) offered = .ok (.schema s))
    (hname : Utf8.encode method = .ok name) (hlen : name.length ≤ maxLength)
    (hsound : s.all isSound) (hw : Writes s args body) (hspend : c.Spends given gas deposit) :
    c.encodeCall (.text method) args given offered = .ok data ↔
      body.length ≤ maxLength ∧ Envelope.wire name body gas deposit = data := by
  constructor
  · intro h
    have hparts := h
    unfold encodeCall at hparts
    rw [hs] at hparts
    obtain ⟨_, ⟨⟩, hparts⟩ := bind_eq_ok.mp hparts
    obtain ⟨body', hargs, -⟩ := bind_eq_ok.mp hparts
    have hargs : s.encode args = .ok body' := mapError_eq_ok.mp hargs
    obtain rfl := hw.only body' hargs
    obtain ⟨name', hname', -, hfits, hdata⟩ := (encodeCall_eq_ok hs hargs hspend).mp h
    cases hname.symm.trans hname'
    exact ⟨hfits, hdata⟩
  · rintro ⟨hfits, hdata⟩
    exact (encodeCall_eq_ok hs (hw.encode hsound hfits) hspend).mpr
      ⟨name, hname, hlen, hfits, hdata⟩

/-- A call goes through unless its arguments are too long, and they are read from it. -/
theorem decodeCall_of_writes (hs : Envelope.argsSchema (.text method) offered = .ok (.schema s))
    (hname : ∃ name, Utf8.encode method = .ok name ∧ name.length ≤ maxLength)
    (hsound : s.all isSound) (hexact : s.all isExact) (hw : Writes s args body)
    (hspend : c.Spends given gas deposit) :
    ((∃ data, c.encodeCall (.text method) args given offered = .ok data) ↔
        body.length ≤ maxLength) ∧
      ∀ data, c.encodeCall (.text method) args given offered = .ok data →
        Envelope.decode (.bytes data) = .ok ⟨.text method, body, .int gas, .int deposit⟩ ∧
        Envelope.decodeArgs ⟨.text method, body, .int gas, .int deposit⟩ offered = .ok args := by
  obtain ⟨name, hname, hlen⟩ := hname
  refine ⟨?_, fun data hdata => ?_⟩
  · simp only [encodeCall_of_writes hs hname hlen hsound hw hspend, exists_and_left,
      exists_eq', and_true]
  · obtain ⟨hfits, rfl⟩ := (encodeCall_of_writes hs hname hlen hsound hw hspend).mp hdata
    refine ⟨Envelope.decode_wire hname hlen hfits hspend.gas_lt hspend.deposit_lt, ?_⟩
    rw [Envelope.decodeArgs_eq hs, deserialize_of_layout hsound hexact (hw.layout hfits)]
    rfl

end Config

/-! ### Calls of the contract -/

namespace ContractCall

/-- A call, its method, its arguments by name, and how many bytes these take. -/
inductive Says : ContractCall → Text → Value → Nat → Prop
  | init : Says .init "init" (.bytes []) 4
  | addPool {token0 token1 : Text} {name0 name1 : Bytes} (h0 : Utf8.encode token0 = .ok name0)
    (h1 : Utf8.encode token1 = .ok name1) :
    Says (.addPool (.text token0) (.text token1)) "add_pool"
      (.map [(.text "token0", .text token0), (.text "token1", .text token1)])
      (8 + name0.length + name1.length)
  | addLiquidity {id amount0 amount1 : Nat} (hid : id < 2 ^ 128) (h0 : amount0 < 2 ^ 128)
    (h1 : amount1 < 2 ^ 128) :
    Says (.addLiquidity (.int id) (.int amount0) (.int amount1)) "add_liquidity"
      (.map [(.text "pool_id", .int id), (.text "amount0", .int amount0),
        (.text "amount1", .int amount1)]) 48
  | removeLiquidity {id : Nat} (hid : id < 2 ^ 128) :
    Says (.removeLiquidity (.int id)) "remove_liquidity" (.map [(.text "pool_id", .int id)]) 16
  | swap {id amount0 amount1 : Nat} (hid : id < 2 ^ 128) (h0 : amount0 < 2 ^ 128)
    (h1 : amount1 < 2 ^ 128) :
    Says (.swap (.int id) (.int amount0) (.int amount1)) "swap"
      (.map [(.text "pool_id", .int id), (.text "amount0_in", .int amount0),
        (.text "amount1_in", .int amount1)]) 48

theorem writes_tokens {token0 token1 : Text} {name0 name1 : Bytes}
    (h0 : Utf8.encode token0 = .ok name0) (h1 : Utf8.encode token1 = .ok name1) :
    ∃ body, Writes (.record [("token0", .text), ("token1", .text)])
      (.map [(.text "token0", .text token0), (.text "token1", .text token1)]) body ∧
        body.length = 8 + name0.length + name1.length := by
  refine ⟨_, writes_pair (by decide) (writes_text h0) (writes_text h1), ?_⟩
  simp only [List.length_append, Bytes.length_ofNatLE, lengthSize]
  omega

variable {call : ContractCall} {method : Text} {args : Value} {size : Nat}

/-- A call is made up of what it says, in that many bytes. -/
theorem Says.writes (h : Says call method args size) :
    call.method = method ∧ call.args = args ∧ ∃ s body,
      Catalog.argsOf (.text method) = .ok s ∧ Writes s args body ∧ body.length = size := by
  cases h with
  | init => exact ⟨rfl, rfl, Catalog.initArgs, _, rfl, writes_bytes [], rfl⟩
  | addPool h0 h1 =>
    obtain ⟨body, hbody, hlen⟩ := writes_tokens h0 h1
    exact ⟨rfl, rfl, _, body, rfl, hbody, hlen⟩
  | @addLiquidity id amount0 amount1 hid h0 h1 =>
    have hn : (["pool_id", "amount0", "amount1"] : List Text).Nodup := by decide
    obtain ⟨body, hbody, hlen⟩ := writes_numbers
      [("pool_id", id), ("amount0", amount0), ("amount1", amount1)] hn (by simp [hid, h0, h1])
    exact ⟨rfl, rfl, _, body, rfl, hbody, hlen⟩
  | @removeLiquidity id hid =>
    have hn : (["pool_id"] : List Text).Nodup := by decide
    obtain ⟨body, hbody, hlen⟩ := writes_numbers [("pool_id", id)] hn (by simp [hid])
    exact ⟨rfl, rfl, _, body, rfl, hbody, hlen⟩
  | @swap id amount0 amount1 hid h0 h1 =>
    have hn : (["pool_id", "amount0_in", "amount1_in"] : List Text).Nodup := by decide
    obtain ⟨body, hbody, hlen⟩ := writes_numbers
      [("pool_id", id), ("amount0_in", amount0), ("amount1_in", amount1)] hn
      (by simp [hid, h0, h1])
    exact ⟨rfl, rfl, _, body, rfl, hbody, hlen⟩

/-- A call goes through unless what it says is too long, and what it says is read from it. -/
theorem Says.decode {c : Config} {given : Spending} {gas deposit : Nat}
    (h : Says call method args size) (hspend : c.Spends given gas deposit) :
    ((∃ data, call.encode c given = .ok data) ↔ size ≤ maxLength) ∧
      ∀ data, call.encode c given = .ok data → ∃ body,
        Envelope.decode (.bytes data) = .ok ⟨.text method, body, .int gas, .int deposit⟩ ∧
        Envelope.decodeArgs ⟨.text method, body, .int gas, .int deposit⟩ (.value .none) =
          .ok args := by
  obtain ⟨rfl, rfl, s, body, hs, hw, rfl⟩ := h.writes
  obtain ⟨-, -, hsound, hexact⟩ := Envelope.methodArgs_nodes _ (Envelope.mem_of_argsOf hs)
  obtain ⟨hok, hread⟩ := Config.decodeCall_of_writes (Envelope.argsSchema_of_argsOf hs)
    (Envelope.encode_of_argsOf hs) hsound hexact hw hspend
  exact ⟨hok, fun data hdata => ⟨body, hread data hdata⟩⟩

end ContractCall

/-! ### Calls of the program -/

namespace ProgramCall

/-- A call of an owner, its method, the accounts that follow the owner, its instruction, and how many
bytes this takes. -/
inductive Says (owner : Bytes) : ProgramCall → Text → List ProgramAccount → Value → Nat → Prop
  | init : Says owner .init "init" [.state] (.map [(.text "init", .map [])]) 1
  | addPool {id : Nat} {token0 token1 : Text} {name0 name1 : Bytes} (hid : id < 2 ^ 128)
    (h0 : Utf8.encode token0 = .ok name0) (h1 : Utf8.encode token1 = .ok name1) :
    Says owner (.addPool (.int id) (.text token0) (.text token1)) "add_pool"
      [.state, .pool (.int id)]
      (.map [(.text "add_pool", .map [(.text "token0", .text token0),
        (.text "token1", .text token1)])])
      (9 + name0.length + name1.length)
  | addLiquidity {id amount0 amount1 : Nat} (hid : id < 2 ^ 128) (h0 : amount0 < 2 ^ 128)
    (h1 : amount1 < 2 ^ 128) :
    Says owner (.addLiquidity (.int id) (.int amount0) (.int amount1)) "add_liquidity"
      [.pool (.int id), .userShares (.bytes owner) (.int id)]
      (.map [(.text "add_liquidity", .map [(.text "amount0", .int amount0),
        (.text "amount1", .int amount1)])]) 33
  | removeLiquidity {id : Nat} (hid : id < 2 ^ 128) :
    Says owner (.removeLiquidity (.int id)) "remove_liquidity"
      [.pool (.int id), .userShares (.bytes owner) (.int id)]
      (.map [(.text "remove_liquidity", .map [])]) 1
  | swap {id amount0 amount1 : Nat} (hid : id < 2 ^ 128) (h0 : amount0 < 2 ^ 128)
    (h1 : amount1 < 2 ^ 128) :
    Says owner (.swap (.int id) (.int amount0) (.int amount1)) "swap" [.pool (.int id)]
      (.map [(.text "swap", .map [(.text "amount0_in", .int amount0),
        (.text "amount1_in", .int amount1)])]) 33

variable {c : Config} {call : ProgramCall} {method : Text} {accounts : List ProgramAccount}
  {instruction program : Value} {size : Nat} {owner code data : Bytes} {derived : List Bytes}
  {given : Spending} {gas deposit : Nat}

/-- The addresses of accounts of a program, in the scheme of the ledger. -/
def Derives (program : Value) (accounts : List ProgramAccount) (derived : List Bytes) : Prop :=
  List.Forall₂ (fun account address => account.address Address.ledger program = .ok address)
    accounts derived

/-- The keys of the accounts and the encoded instruction, as they are passed on. -/
def passed (keys : List Bytes) (code : Bytes) : Value :=
  .map [(.text "accounts", .list (keys.map .bytes)), (.text "instruction_data", .bytes code)]

theorem instruction_nodes :
    Catalog.programInstruction.all isSound ∧ Catalog.programInstruction.all isExact ∧
      Catalog.programInstruction.all isFlat :=
  Catalog.nodes_of_get (rfl : Catalog.get "solana_amm_instruction" = .ok Catalog.programInstruction)

theorem context_nodes :
    Catalog.programContext.all isSound ∧ Catalog.programContext.all isExact ∧
      Catalog.programContext.all isFlat :=
  Catalog.nodes_of_get (rfl : Catalog.get "solana_context" = .ok Catalog.programContext)

/-- A call is made up of what it says, in that many bytes, and its method is known. -/
theorem Says.writes (h : Says owner call method accounts instruction size) :
    call.method = method ∧ call.touched (.bytes owner) = accounts ∧
      call.instruction = instruction ∧ (∃ s, Catalog.argsOf (.text method) = .ok s) ∧
      ∃ code, Writes Catalog.programInstruction instruction code ∧ code.length = size := by
  have hs := instruction_nodes.1
  obtain ⟨nothing, hnothing, hnone⟩ := writes_numbers [] .nil nofun
  cases h with
  | init => exact ⟨rfl, rfl, rfl, ⟨_, rfl⟩, _, writes_union hs 0 rfl hnothing, congrArg (· + 1) hnone⟩
  | addPool hid h0 h1 =>
    obtain ⟨body, hbody, hlen⟩ := ContractCall.writes_tokens h0 h1
    refine ⟨rfl, rfl, rfl, ⟨_, rfl⟩, _, writes_union hs 1 rfl hbody, ?_⟩
    rw [List.length_cons, hlen]
    omega
  | @addLiquidity id amount0 amount1 hid h0 h1 =>
    have hn : (["amount0", "amount1"] : List Text).Nodup := by decide
    obtain ⟨body, hbody, hlen⟩ := writes_numbers [("amount0", amount0), ("amount1", amount1)] hn
      (by simp [h0, h1])
    exact ⟨rfl, rfl, rfl, ⟨_, rfl⟩, _, writes_union hs 2 rfl hbody, congrArg (· + 1) hlen⟩
  | removeLiquidity hid =>
    exact ⟨rfl, rfl, rfl, ⟨_, rfl⟩, _, writes_union hs 3 rfl hnothing,
      congrArg (· + 1) hnone⟩
  | @swap id amount0 amount1 hid h0 h1 =>
    have hn : (["amount0_in", "amount1_in"] : List Text).Nodup := by decide
    obtain ⟨body, hbody, hlen⟩ := writes_numbers
      [("amount0_in", amount0), ("amount1_in", amount1)] hn (by simp [h0, h1])
    exact ⟨rfl, rfl, rfl, ⟨_, rfl⟩, _, writes_union hs 4 rfl hbody, congrArg (· + 1) hlen⟩

theorem length_of_address {account : ProgramAccount} {address : Bytes}
    (h : account.address Address.ledger program = .ok address) :
    address.length = Address.programSize := by
  obtain ⟨seeds, -, h⟩ := bind_eq_ok.mp h
  obtain ⟨⟨_, bump⟩, hfind, ⟨⟩⟩ := bind_eq_ok.mp h
  obtain ⟨x, rfl⟩ := Address.Scheme.hash_of_findFor (mapError_eq_ok.mp hfind)
  exact Sha256.length_digest x

theorem length_of_derives (h : Derives program accounts derived) :
    ∀ key ∈ derived, key.length = Address.programSize := by
  induction h with
  | nil => nofun
  | cons head _ ih => exact List.forall_mem_cons.mpr ⟨length_of_address head, ih⟩

theorem addresses_of_derives (h : Derives program accounts derived) :
    addresses Address.ledger program accounts = .ok derived := by
  induction h with
  | nil => rfl
  | @cons account address accounts derived head tail ih =>
    show (account.address Address.ledger program >>= fun first =>
      addresses Address.ledger program accounts >>= fun rest => pure (first :: rest)) = _
    rw [head, ih]
    rfl

theorem derives_of_addresses (h : addresses Address.ledger program accounts = .ok derived) :
    Derives program accounts derived := by
  induction accounts generalizing derived with
  | nil =>
    cases h
    exact .nil
  | cons account accounts ih =>
    obtain ⟨first, hfirst, h⟩ := bind_eq_ok.mp h
    obtain ⟨rest, hrest, h⟩ := bind_eq_ok.mp h
    cases h
    exact .cons hfirst (ih hrest)

/-- A call passes on the keys of its accounts, if its instruction can be written. -/
theorem encode_eq_ok (howner : owner.length = keySize)
    (h : addresses Address.ledger program (call.touched (.bytes owner)) = .ok derived) :
    call.encode c program (.bytes owner) given = .ok data ↔
      ∃ code, Catalog.programInstruction.encode call.instruction = .ok code ∧
        c.encodeCall (.text call.method) (passed (owner :: derived) code) given
          (.schema Catalog.programContext) = .ok data := by
  have hkey : checkKey (.bytes owner) = .ok owner := if_pos howner
  have hcontext : call.context Address.ledger program (.bytes owner) =
      (Catalog.programInstruction.encode call.instruction).mapError Error.encode >>= fun code =>
        pure (passed (owner :: derived) code) := by
    unfold context
    rw [h, hkey]
    rfl
  unfold encode encodeWith
  rw [hcontext]
  simp only [bind_eq_ok, mapError_eq_ok, pure_def, Except.ok.injEq]
  constructor
  · rintro ⟨_, ⟨code, hcode, rfl⟩, hdata⟩
    exact ⟨code, hcode, hdata⟩
  · rintro ⟨code, hcode, hdata⟩
    exact ⟨_, ⟨code, hcode, rfl⟩, hdata⟩

/-- The bytes of what is passed on: how many keys, the keys, and the instruction behind its length. -/
def passedBytes (keys : List Bytes) (code : Bytes) : Bytes :=
  Bytes.ofNatLE lengthSize keys.length ++ keys.flatten ++
    (Bytes.ofNatLE lengthSize code.length ++ code)

theorem length_passedBytes {keys : List Bytes} (h : ∀ key ∈ keys, key.length = 32) (code : Bytes) :
    (passedBytes keys code).length = 32 * keys.length + 8 + code.length := by
  simp only [passedBytes, List.length_append, Bytes.length_ofNatLE, lengthSize, length_keys h]
  omega

theorem writes_passed {keys : List Bytes} (h : ∀ key ∈ keys, key.length = 32) (code : Bytes) :
    Writes Catalog.programContext (passed keys code) (passedBytes keys code) :=
  writes_pair (by decide) (writes_keys (by decide) h) (writes_bytes code)

/-- A call goes through unless what it says is too long, and what it says is read from it. -/
theorem Says.decode (h : Says owner call method accounts instruction size)
    (howner : owner.length = 32) (hderived : Derives program accounts derived)
    (hspend : c.Spends given gas deposit) :
    ((∃ data, call.encode c program (.bytes owner) given = .ok data) ↔
        32 * (accounts.length + 1) + 8 + size ≤ maxLength) ∧
      ∀ data, call.encode c program (.bytes owner) given = .ok data → ∃ body code,
        Envelope.decode (.bytes data) = .ok ⟨.text method, body, .int gas, .int deposit⟩ ∧
        Envelope.decodeArgs ⟨.text method, body, .int gas, .int deposit⟩
          (.schema Catalog.programContext) = .ok (passed (owner :: derived) code) ∧
        Catalog.programInstruction.deserialize code = .ok instruction := by
  obtain ⟨rfl, rfl, rfl, ⟨s, hs⟩, code, hcode, rfl⟩ := h.writes
  have hkeys : ∀ key ∈ owner :: derived, key.length = 32 :=
    List.forall_mem_cons.mpr ⟨howner, length_of_derives hderived⟩
  have hschema : Envelope.argsSchema (.text call.method) (.schema Catalog.programContext) =
      .ok (.schema Catalog.programContext) := rfl
  obtain ⟨hok, hread⟩ := Config.decodeCall_of_writes hschema (Envelope.encode_of_argsOf hs)
    context_nodes.1 context_nodes.2.1 (writes_passed hkeys code) hspend
  rw [length_passedBytes hkeys, List.length_cons, ← hderived.length_eq] at hok
  -- An instruction that fits into the arguments fits behind its own length, so it is written.
  have hpassed (data : Bytes) : call.encode c program (.bytes owner) given = .ok data ↔
      c.encodeCall (.text call.method) (passed (owner :: derived) code) given
        (.schema Catalog.programContext) = .ok data := by
    rw [encode_eq_ok howner (addresses_of_derives hderived)]
    constructor
    · rintro ⟨code', hcode', hdata⟩
      obtain rfl := hcode.only code' hcode'
      exact hdata
    · intro hdata
      have hfits := hok.mp ⟨data, hdata⟩
      exact ⟨code, hcode.encode instruction_nodes.1 (by omega), hdata⟩
  simp only [hpassed]
  refine ⟨hok, fun data hdata => ?_⟩
  have hfits := hok.mp ⟨data, hdata⟩
  obtain ⟨henvelope, hargs⟩ := hread data hdata
  exact ⟨_, code, henvelope, hargs, deserialize_of_layout instruction_nodes.1
    instruction_nodes.2.1 (hcode.layout (by omega))⟩

end ProgramCall

/-! ### Calls of both builds -/

namespace Config

/-- A call of the exchange goes through just if its encoded arguments fit behind a length. Method, gas
and deposit are read from its envelope, and by the schema of the arguments all that it was given: of a
contract the arguments by name; of a program the owner and the addresses of the accounts in their
order, for the same program, owner and pool, and the one instruction. -/
theorem exchange_calls_decode {c : Config} {given : Spending} {gas deposit : Nat}
    (hspend : c.Spends given gas deposit) :
    (∀ call method args size, ContractCall.Says call method args size →
      ((∃ data, call.encode c given = .ok data) ↔ size ≤ 2 ^ 32 - 1) ∧
      ∀ data, call.encode c given = .ok data → ∃ body,
        Envelope.decode (.bytes data) = .ok ⟨.text method, body, .int gas, .int deposit⟩ ∧
        Envelope.decodeArgs ⟨.text method, body, .int gas, .int deposit⟩ (.value .none) =
          .ok args) ∧
    ∀ (program : Value) (owner : Bytes) (call : ProgramCall) (method : Text)
      (accounts : List ProgramAccount) (instruction : Value) (size : Nat) (derived : List Bytes),
      owner.length = 32 → ProgramCall.Says owner call method accounts instruction size →
      List.Forall₂ (fun account address => account.address Address.ledger program = .ok address)
        accounts derived →
      ((∃ data, call.encode c program (.bytes owner) given = .ok data) ↔
        32 * (accounts.length + 1) + 8 + size ≤ 2 ^ 32 - 1) ∧
      ∀ data, call.encode c program (.bytes owner) given = .ok data → ∃ body code,
        Envelope.decode (.bytes data) = .ok ⟨.text method, body, .int gas, .int deposit⟩ ∧
        Envelope.decodeArgs ⟨.text method, body, .int gas, .int deposit⟩
          (.schema Catalog.programContext) =
            .ok (.map [(.text "accounts", .list ((owner :: derived).map .bytes)),
              (.text "instruction_data", .bytes code)]) ∧
        Catalog.programInstruction.deserialize code = .ok instruction :=
  ⟨fun _ _ _ _ h => h.decode hspend,
    fun _ _ _ _ _ _ _ _ howner h hderived => h.decode howner hderived hspend⟩

/-- A swap of the contract, and one of the program whose identity and owner are all zeros. -/
theorem exchange_calls_decode_swap :
    let zeros : Bytes := List.replicate 32 0
    (∃ data body, (ContractCall.swap (.int 7) (.int 1) (.int 2)).encode default ⟨.int 0, .int 0⟩ =
        .ok data ∧
      Envelope.decode (.bytes data) = .ok ⟨.text "swap", body, .int 0, .int 0⟩ ∧
      Envelope.decodeArgs ⟨.text "swap", body, .int 0, .int 0⟩ (.value .none) =
        .ok (.map [(.text "pool_id", .int 7), (.text "amount0_in", .int 1),
          (.text "amount1_in", .int 2)])) ∧
    ∃ pool data body code,
      (ProgramAccount.pool (.int 7)).address Address.ledger (.bytes zeros) = .ok pool ∧
      (ProgramCall.swap (.int 7) (.int 1) (.int 2)).encode default (.bytes zeros) (.bytes zeros)
        ⟨.int 0, .int 0⟩ = .ok data ∧
      Envelope.decode (.bytes data) = .ok ⟨.text "swap", body, .int 0, .int 0⟩ ∧
      Envelope.decodeArgs ⟨.text "swap", body, .int 0, .int 0⟩ (.schema Catalog.programContext) =
        .ok (.map [(.text "accounts", .list [.bytes zeros, .bytes pool]),
          (.text "instruction_data", .bytes code)]) ∧
      Catalog.programInstruction.deserialize code =
        .ok (.map [(.text "swap", .map [(.text "amount0_in", .int 1),
          (.text "amount1_in", .int 2)])]) := by
  intro zeros
  obtain ⟨hcontract, hprogram⟩ := exchange_calls_decode spends_default
  have hid : 7 < 2 ^ 128 := by decide
  have h0 : 1 < 2 ^ 128 := by decide
  have h1 : 2 < 2 ^ 128 := by decide
  constructor
  · obtain ⟨hok, hread⟩ := hcontract _ _ _ _ (.swap hid h0 h1)
    obtain ⟨data, hdata⟩ := hok.mpr (by decide)
    obtain ⟨body, hdecode, hargs⟩ := hread data hdata
    exact ⟨data, body, hdata, hdecode, hargs⟩
  · have hsome : ((ProgramAccount.pool (.int 7)).address Address.ledger
        (.bytes zeros)).toOption.isSome := by
      decide +kernel
    cases hpool : (ProgramAccount.pool (.int 7)).address Address.ledger (.bytes zeros) with
    | error fault =>
      rw [hpool] at hsome
      cases hsome
    | ok pool =>
      obtain ⟨hok, hread⟩ := hprogram (.bytes zeros) zeros _ _ _ _ _ _ rfl (.swap hid h0 h1)
        (.cons hpool .nil)
      obtain ⟨data, hdata⟩ := hok.mpr (by decide)
      obtain ⟨body, code, hdecode, hargs, hcode⟩ := hread data hdata
      exact ⟨pool, data, body, code, rfl, hdata, hdecode, hargs, hcode⟩

/-! ### Calls that are refused -/

theorem spelled_replicate (n : Nat) :
    Utf8.encode (List.replicate n (CodePoint.ofChar 'a')) =
      .ok ((List.replicate n (CodePoint.ofChar 'a')).flatMap Utf8.encodeOne) :=
  Utf8.encode_eq_ok.mpr ⟨fun _ hx => List.eq_of_mem_replicate hx ▸ by decide, rfl⟩

theorem encode_addPool_long {c : Config} {given : Spending} {gas deposit : Nat}
    (hspend : c.Spends given gas deposit) (data : Bytes) :
    (ContractCall.addPool (.text (List.replicate (maxLength + 1) (CodePoint.ofChar 'a')))
      (.text [])).encode c given ≠ .ok data := by
  intro hdata
  have hlong := ContractCall.Says.addPool (spelled_replicate (maxLength + 1)) (spelled_replicate 0)
  have hfits := (hlong.decode hspend).1.mp ⟨data, hdata⟩
  rw [length_flatMap_replicate] at hfits
  omega

/-- A truth value is no identity of a pool, though it counts as a number elsewhere; and a token may have
a spelling in UTF-8 that is longer than what a length can say. -/
theorem exchange_calls_refused :
    Value.toInt? (.bool true) = some 1 ∧
    (ContractCall.removeLiquidity (.bool true)).encode default ⟨.int 0, .int 0⟩ =
      .error (.encode (.mismatch [.name "pool_id"] (.integer "u128" .bool))) ∧
    (ProgramCall.removeLiquidity (.bool true)).encode default (.bytes (List.replicate 32 0))
      (.bytes (List.replicate 32 0)) ⟨.int 0, .int 0⟩ = .error (.seed (.notInteger .bool)) ∧
    (∃ name, Utf8.encode (List.replicate (maxLength + 1) (CodePoint.ofChar 'a')) = .ok name) ∧
    ∀ data, (ContractCall.addPool (.text (List.replicate (maxLength + 1) (CodePoint.ofChar 'a')))
      (.text [])).encode default ⟨.int 0, .int 0⟩ ≠ .ok data :=
  ⟨rfl, rfl, rfl, ⟨_, spelled_replicate _⟩, encode_addPool_long spends_default⟩

end Config

end LedgerWire
