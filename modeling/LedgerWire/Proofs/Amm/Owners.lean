import LedgerWire.Error.Sort
import LedgerWire.Proofs.Address.Numbers
import LedgerWire.Proofs.Amm.Calls
import LedgerWire.Proofs.Schema.Acceptance
import LedgerWire.Proofs.Value.Cast

/-!
# Owners that are no keys

The owner of a call has to be a byte string of 32 bytes. Every other owner is refused, and what is said
about it is told by its kind, unless the call touches the shares of the owner. Their address is derived
before the key is checked, from the cast of the owner as a seed: what goes wrong there comes first.
-/

namespace LedgerWire

open Value

/-! ### Outcomes of casts and of seeds -/

theorem Value.toByte_eq_outOfRange {item : Value} :
    item.toByte = .error .outOfRange ↔ ∃ n : Int, item = .int n ∧ (n < 0 ∨ 255 < n) := by
  cases item with
  | bool b => cases b <;> simp [toByte, toInt?]
  | int n =>
    simp only [toByte, toInt?, ite_eq_error, and_true, Value.int.injEq, exists_eq_left']
    omega
  | _ => simp [toByte, toInt?]

theorem Value.kind_ne_bytes {v : Value} {fault : CastFault} (h : v.castBytes = .error fault) :
    v.kind ≠ .bytes := by
  cases v with
  | bytes bs => cases h
  | _ => nofun

theorem Seed.length_of_ofId {id : Value} {seed : Bytes} (h : Seed.ofId id = .ok seed) :
    seed.length = 16 :=
  (Seed.toNumber_of_ofNumber rfl h).1

theorem AddressFault.sort_of_exceeds {fault : AddressFault} (h : fault.exceedsLimits = true) :
    fault.sort = .seedLimits := by
  cases fault <;> first | rfl | cases h

namespace ProgramCall

/-! ### Casts that are no seeds -/

/-- Too many bytes for a seed, or a number out of range in front of what else is no byte. -/
inductive StrayItems : List Value → Prop
  | long {items : List Value} (each : ∀ item ∈ items, IsByte item) (length : 32 < items.length) :
    StrayItems items
  | range {front back : List Value} {n : Int} (each : ∀ item ∈ front, IsByte item)
    (range : n < 0 ∨ 255 < n) : StrayItems (front ++ .int n :: back)

/-- The cast of the owner is too long for a seed, or fails for what the owner is and not for its kind. -/
inductive Strays : Value → Prop
  | bytes {key : Bytes} (length : 32 < key.length) : Strays (.bytes key)
  | number {n : Int} (range : n < 0 ∨ 32 < n) : Strays (.int n)
  | list {items : List Value} (h : StrayItems items) : Strays (.list items)
  | keys {entries : Entries} (h : StrayItems (entries.map (·.1))) : Strays (.map entries)

/-- What comes of a cast is no seed, and says nothing about kinds. -/
def Escapes : Except CastFault Bytes → Prop
  | .ok body => 32 < body.length
  | .error fault => fault.sort ≠ .kind

variable {owner : Value} {items : List Value}

theorem strayItems_iff : StrayItems items ↔ Escapes ((toByteItems items).mapError .item) := by
  constructor
  · rintro (⟨each, hlength⟩ | ⟨each, hrange⟩)
    · obtain ⟨body, hbody, hbytes⟩ := exists_toByteItems.mpr ⟨rfl, each⟩
      rw [hbody]
      show 32 < body.length
      rwa [hbytes]
    · rw [toByteItems_eq_error.mpr ⟨_, _, _, rfl, each, toByte_eq_outOfRange.mpr ⟨_, rfl, hrange⟩⟩]
      show ErrorSort.value ≠ .kind
      decide
  · intro h
    cases hitems : toByteItems items with
    | ok body =>
      rw [hitems] at h
      obtain ⟨hlength, each⟩ := exists_toByteItems.mp ⟨body, hitems, rfl⟩
      exact .long each (hlength ▸ h)
    | error fault =>
      rw [hitems] at h
      cases fault with
      | outOfRange =>
        obtain ⟨front, item, back, rfl, each, hitem⟩ := toByteItems_eq_error.mp hitems
        obtain ⟨n, rfl, hrange⟩ := toByte_eq_outOfRange.mp hitem
        exact .range each hrange
      | notInteger kind => exact absurd rfl h

theorem strays_iff : Strays owner ↔ Escapes owner.castBytes := by
  cases owner with
  | none => exact iff_of_false nofun fun h => h rfl
  | float x => exact iff_of_false nofun fun h => h rfl
  | text t => exact iff_of_false nofun fun h => h rfl
  | bool b => cases b <;> exact iff_of_false nofun (by decide : ¬ 32 < _)
  | int n =>
    have hstrays : Strays (.int n) ↔ n < 0 ∨ 32 < n := by
      refine ⟨fun h => ?_, .number⟩
      cases h with
      | number range => exact range
    rw [hstrays]
    have hmax : 32 ≤ (Bytes.maxLength : Int) := by decide
    simp only [castBytes]
    split_ifs with hhuge hnegative hfits
    · exact iff_of_true (by omega) (by decide : ErrorSort.overflow ≠ .kind)
    · exact iff_of_true (.inl hnegative) (by decide : ErrorSort.value ≠ .kind)
    · show _ ↔ 32 < (List.replicate n.toNat (0 : UInt8)).length
      rw [List.length_replicate]
      omega
    · exact iff_of_true (by omega) (by decide : ErrorSort.overflow ≠ .kind)
  | bytes key =>
    refine ⟨fun h => ?_, .bytes⟩
    cases h with
    | bytes length => exact length
  | list items =>
    refine ⟨fun h => ?_, fun h => .list (strayItems_iff.mpr h)⟩
    cases h with
    | list h => exact strayItems_iff.mp h
  | map entries =>
    refine ⟨fun h => ?_, fun h => .keys (strayItems_iff.mpr h)⟩
    cases h with
    | keys h => exact strayItems_iff.mp h

/-! ### What a call comes to -/

/-- The owner is refused for its kind or, if it is a byte string, for its value. -/
def Rejects (owner : Value) (r : Except Error Bytes) : Prop :=
  ∃ error, r = .error error ∧ (owner.kind = .bytes → error.sort.isValue) ∧
    (owner.kind ≠ .bytes → error.sort = .kind)

variable {scheme : Address.Scheme} {call : ProgramCall} {c : Config} {program id : Value}
  {spending : Spending} {derived : List Bytes} {error : Error}

/-- A call touches the same accounts for every owner, but for the shares of the owner in one pool. -/
theorem touched_cases (call : ProgramCall) :
    (∃ accounts, (∀ owner, call.touched owner = accounts) ∧
      ∀ owner id, .userShares owner id ∉ accounts) ∨
    ∃ id, ∀ owner, call.touched owner = [.pool id, .userShares owner id] := by
  cases call with
  | init => exact .inl ⟨_, fun _ => rfl, by simp⟩
  | addPool nextPoolId token0 token1 => exact .inl ⟨_, fun _ => rfl, by simp⟩
  | addLiquidity poolId amount0 amount1 => exact .inr ⟨poolId, fun _ => rfl⟩
  | removeLiquidity poolId => exact .inr ⟨poolId, fun _ => rfl⟩
  | swap poolId amount0In amount1In => exact .inl ⟨_, fun _ => rfl, by simp⟩

theorem checkKey_cases (howner : ∀ key, owner = .bytes key → key.length ≠ keySize) :
    ∃ fault, checkKey owner = .error fault ∧ Rejects owner (.error (.accountKey fault)) := by
  cases owner with
  | bytes key => exact ⟨_, if_neg (howner key rfl), _, rfl, fun _ => rfl, fun h => absurd rfl h⟩
  | _ => exact ⟨_, rfl, _, rfl, nofun, fun _ => rfl⟩

/-- Where the accounts have addresses, the key of the owner is what a call is refused for. -/
theorem rejects_of_addresses (howner : ∀ key, owner = .bytes key → key.length ≠ keySize)
    (h : addresses scheme program (call.touched owner) = .ok derived) :
    Rejects owner (call.encodeWith scheme c program owner spending) := by
  obtain ⟨fault, hfault, hrejects⟩ := checkKey_cases howner
  have hrefused : call.encodeWith scheme c program owner spending = .error (.accountKey fault) := by
    unfold encodeWith context
    rw [h, hfault]
    rfl
  rwa [hrefused]

theorem encodeWith_of_addresses (h : addresses scheme program (call.touched owner) = .error error) :
    call.encodeWith scheme c program owner spending = .error error := by
  unfold encodeWith context
  rw [h]
  rfl

/-! ### The shares of the owner -/

/-- Where a pool has an address, its identity is a seed and the program has one. -/
theorem of_address_pool {address : Bytes}
    (h : (ProgramAccount.pool id).address scheme program = .ok address) :
    (∃ seed, Seed.ofId id = .ok seed) ∧ ∃ key, Address.programOf program = .ok key := by
  obtain ⟨seeds, hseeds, h⟩ := bind_eq_ok.mp h
  obtain ⟨found, hfound, -⟩ := bind_eq_ok.mp h
  obtain ⟨seed, hseed, -⟩ := bind_eq_ok.mp hseeds
  obtain ⟨key, hkey, -⟩ := bind_eq_ok.mp (mapError_eq_ok.mp hfound)
  exact ⟨⟨seed, mapError_eq_ok.mp hseed⟩, key, hkey⟩

/-- What comes of the address of the shares of an owner, by the cast of the owner. -/
inductive SharesOutcome (owner : Value) : Except Error Bytes → Prop
  | uncast {fault : CastFault} (cast : owner.castBytes = .error fault) :
    SharesOutcome owner (.error (.cast fault))
  | long {body : Bytes} {fault : AddressFault} (cast : owner.castBytes = .ok body)
    (length : 32 < body.length) (sort : fault.sort = .seedLimits) :
    SharesOutcome owner (.error (.address fault))
  | found {body address : Bytes} (cast : owner.castBytes = .ok body) (length : body.length ≤ 32) :
    SharesOutcome owner (.ok address)
  | exhausted {body : Bytes} (cast : owner.castBytes = .ok body) (length : body.length ≤ 32) :
    SharesOutcome owner (.error (.address .noBump))

theorem sharesOutcome {pool : Bytes} (owner : Value)
    (hpool : (ProgramAccount.pool id).address scheme program = .ok pool) :
    SharesOutcome owner ((ProgramAccount.userShares owner id).address scheme program) := by
  obtain ⟨⟨seed, hseed⟩, key, hkey⟩ := of_address_pool hpool
  have hseeds : (ProgramAccount.userShares owner id).seeds = owner.castBytes.mapError Error.cast >>=
      fun body => (Seed.ofId id).mapError Error.seed >>= fun id =>
        pure [ProgramAccount.asciiBytes "user_pool_shares", body, id] := rfl
  rw [hseed] at hseeds
  cases hcast : owner.castBytes with
  | error fault =>
    have haddress : (ProgramAccount.userShares owner id).address scheme program =
        .error (.cast fault) := by
      unfold ProgramAccount.address
      rw [hseeds, hcast]
      rfl
    rw [haddress]
    exact .uncast hcast
  | ok body =>
    rw [hcast] at hseeds
    rw [ProgramAccount.address_eq scheme hseeds]
    by_cases hlong : 32 < body.length
    · obtain ⟨fault, hfault, hlimits⟩ := (Address.Scheme.exceeds_findFor_bytes scheme
        [ProgramAccount.asciiBytes "user_pool_shares", body, seed] program).mpr
          ⟨⟨key, hkey⟩, .inr ⟨body, by simp, hlong⟩⟩
      rw [hfault]
      exact .long hcast hlong (AddressFault.sort_of_exceeds hlimits)
    · have hshort : body.length ≤ 32 := Nat.not_lt.mp hlong
      have hwithin : Address.WithinLimits
          [ProgramAccount.asciiBytes "user_pool_shares", body, seed] := by
        refine ⟨(by decide : 3 < 16), ?_⟩
        simp only [List.forall_mem_cons, Seed.length_of_ofId hseed]
        exact ⟨by decide, hshort, by decide, nofun⟩
      rcases Address.Scheme.findFor_cases hwithin hkey scheme with ⟨found, hfound⟩ | hnone
      · rw [hfound]
        exact .found hcast hshort
      · rw [hnone]
        exact .exhausted hcast hshort

/-- What is wrong with seeds is nothing that an owner is to be refused for. -/
theorem not_rejects_address {fault : AddressFault} (hkind : fault.sort ≠ .kind)
    (hvalue : fault.sort.isValue = false) : ¬ Rejects owner (.error (.address fault)) := by
  rintro ⟨_, ⟨⟩, hbytes, hother⟩
  by_cases howner : owner.kind = .bytes
  · rw [show (Error.address fault).sort = fault.sort from rfl, hvalue] at hbytes
    exact Bool.false_ne_true (hbytes howner)
  · exact hkind (hother howner)

/-- An error of the shares is one that an owner is to be refused for just if the cast of the owner does
not stray and bumps are left. -/
theorem rejects_shares_iff (h : SharesOutcome owner (.error error)) :
    Rejects owner (.error error) ↔ ¬ Strays owner ∧ (.error error : Except Error Bytes) ≠
      .error (.address .noBump) := by
  rw [strays_iff]
  cases h with
  | @uncast fault cast =>
    rw [cast]
    constructor
    · rintro ⟨_, ⟨⟩, -, hother⟩
      exact ⟨fun h => h (hother (kind_ne_bytes cast)), nofun⟩
    · rintro ⟨hkind, -⟩
      have hkind : fault.sort = .kind := Classical.not_not.mp hkind
      exact ⟨_, rfl, fun h => absurd h (kind_ne_bytes cast), fun _ => hkind⟩
  | @long body fault cast length sort =>
    have hkind : fault.sort ≠ .kind := by
      rw [sort]
      decide
    have hvalue : fault.sort.isValue = false := by
      rw [sort]
      rfl
    rw [cast]
    exact iff_of_false (not_rejects_address hkind hvalue) fun h => h.1 length
  | exhausted cast length => exact iff_of_false (not_rejects_address nofun rfl) fun h => h.2 rfl

theorem not_strays_of_found {address : Bytes} (h : SharesOutcome owner (.ok address)) :
    ¬ Strays owner := by
  cases h with
  | found cast length =>
    rw [strays_iff, cast]
    exact Nat.not_lt.mpr length

/-! ### Owners that are no keys -/

/-- A call goes through with a key, so everything but its owner is right. -/
def GoesThrough (call : ProgramCall) (scheme : Address.Scheme) (c : Config) (program : Value)
    (spending : Spending) : Prop :=
  ∃ key data, key.length = keySize ∧
    call.encodeWith scheme c program (.bytes key) spending = .ok data

theorem addresses_of_goesThrough (h : GoesThrough call scheme c program spending) :
    ∃ key derived, addresses scheme program (call.touched (.bytes key)) = .ok derived := by
  obtain ⟨key, data, -, h⟩ := h
  obtain ⟨context, hcontext, -⟩ := bind_eq_ok.mp h
  obtain ⟨derived, hderived, -⟩ := bind_eq_ok.mp hcontext
  exact ⟨key, derived, hderived⟩

/-- The pool of a call that touches shares has an address. -/
theorem pool_of_goesThrough (h : GoesThrough call scheme c program spending)
    (htouched : ∀ owner, call.touched owner = [.pool id, .userShares owner id]) :
    ∃ pool, (ProgramAccount.pool id).address scheme program = .ok pool := by
  obtain ⟨key, derived, hderived⟩ := addresses_of_goesThrough h
  rw [htouched] at hderived
  obtain ⟨pool, hpool, -⟩ := bind_eq_ok.mp hderived
  exact ⟨pool, hpool⟩

theorem encodeWith_ne_ok (howner : ∀ key, owner = .bytes key → key.length ≠ keySize) (data : Bytes) :
    call.encodeWith scheme c program owner spending ≠ .ok data := by
  intro h
  obtain ⟨context, hcontext, -⟩ := bind_eq_ok.mp h
  obtain ⟨derived, -, hcontext⟩ := bind_eq_ok.mp hcontext
  obtain ⟨key, hkey, -⟩ := bind_eq_ok.mp hcontext
  obtain ⟨fault, hfault, -⟩ := checkKey_cases howner
  rw [hfault] at hkey
  cases hkey

/-- A call that touches shares refuses the owner as it should, unless their address is in the way. -/
theorem rejects_iff_of_shares {pool : Bytes}
    (howner : ∀ key, owner = .bytes key → key.length ≠ keySize)
    (htouched : call.touched owner = [.pool id, .userShares owner id])
    (hpool : (ProgramAccount.pool id).address scheme program = .ok pool) :
    Rejects owner (call.encodeWith scheme c program owner spending) ↔ ¬ Strays owner ∧
      (ProgramAccount.userShares owner id).address scheme program ≠ .error (.address .noBump) := by
  have haddresses : addresses scheme program (call.touched owner) =
      (ProgramAccount.userShares owner id).address scheme program >>= fun shares =>
        pure [pool, shares] := by
    rw [htouched, addresses, hpool, addresses]
    cases (ProgramAccount.userShares owner id).address scheme program with
    | ok shares => rfl
    | error error => rfl
  have houtcome := sharesOutcome owner hpool
  cases hshares : (ProgramAccount.userShares owner id).address scheme program with
  | ok shares =>
    rw [hshares] at haddresses houtcome
    exact iff_of_true (rejects_of_addresses howner haddresses) ⟨not_strays_of_found houtcome, nofun⟩
  | error error =>
    rw [hshares] at haddresses houtcome
    rw [encodeWith_of_addresses haddresses]
    exact rejects_shares_iff houtcome

/-- No call of an owner that is no key goes through. The owner is refused for its kind or, if it is a
byte string, for its value, by every call that touches no shares; and by a call that does, just if the
cast of the owner does not stray and leaves a bump. -/
theorem owner_refused_iff (hcall : GoesThrough call scheme c program spending)
    (howner : ∀ key, owner = .bytes key → key.length ≠ keySize) :
    (∀ data, call.encodeWith scheme c program owner spending ≠ .ok data) ∧
      (Rejects owner (call.encodeWith scheme c program owner spending) ↔
        ∀ id, .userShares owner id ∈ call.touched owner → ¬ Strays owner ∧
          (ProgramAccount.userShares owner id).address scheme program ≠
            .error (.address .noBump)) := by
  refine ⟨encodeWith_ne_ok howner, ?_⟩
  rcases touched_cases call with ⟨accounts, hsame, hnone⟩ | ⟨id, htouched⟩
  · obtain ⟨key, derived, hderived⟩ := addresses_of_goesThrough hcall
    rw [hsame, ← hsame owner] at hderived
    refine iff_of_true (rejects_of_addresses howner hderived) fun id hmem => ?_
    rw [hsame] at hmem
    exact absurd hmem (hnone owner id)
  · obtain ⟨pool, hpool⟩ := pool_of_goesThrough hcall htouched
    rw [rejects_iff_of_shares howner (htouched owner) hpool, htouched]
    simp

/-- The shares of the owner whose key is all zeros, in the first pool of the program of that identity. -/
theorem goesThrough_zeros : GoesThrough (.removeLiquidity (.int 0)) Address.ledger Config.default
    (.bytes (List.replicate 32 0)) ⟨.int 0, .int 0⟩ := by
  have hpool : ((ProgramAccount.pool (.int 0)).address Address.ledger
      (.bytes (List.replicate 32 0))).toOption.isSome := by
    decide +kernel
  have hshares : ((ProgramAccount.userShares (.bytes (List.replicate 32 0)) (.int 0)).address
      Address.ledger (.bytes (List.replicate 32 0))).toOption.isSome := by
    decide +kernel
  obtain ⟨pool, hpool⟩ := exists_ok_of_isSome hpool
  obtain ⟨shares, hshares⟩ := exists_ok_of_isSome hshares
  have hcall : Says (List.replicate 32 0) (.removeLiquidity (.int 0)) "remove_liquidity"
      [.pool (.int 0), .userShares (.bytes (List.replicate 32 0)) (.int 0)]
      (.map [(.text "remove_liquidity", .map [])]) 1 := .removeLiquidity (by decide : 0 < 2 ^ 128)
  have hderived : Derives (.bytes (List.replicate 32 0))
      [.pool (.int 0), .userShares (.bytes (List.replicate 32 0)) (.int 0)] [pool, shares] :=
    .cons hpool (.cons hshares .nil)
  obtain ⟨hgoes, -⟩ := hcall.decode rfl hderived Config.spends_default
  obtain ⟨data, hdata⟩ := hgoes.mpr (by decide)
  exact ⟨_, data, rfl, hdata⟩

/-- A list that is no byte string is refused for its kind, though its first item is a byte. -/
theorem owner_refused_iff_list : Rejects (.list [.int 1, .text "a"])
    ((ProgramCall.removeLiquidity (.int 0)).encode Config.default (.bytes (List.replicate 32 0))
      (.list [.int 1, .text "a"]) ⟨.int 0, .int 0⟩) := by
  have howner : ∀ key, Value.list [.int 1, .text "a"] = .bytes key → key.length ≠ keySize := nofun
  obtain ⟨-, hrejects⟩ := owner_refused_iff goesThrough_zeros howner
  refine hrejects.mpr fun id _ => ⟨fun hstrays => ?_, ?_⟩
  · exact strays_iff.mp hstrays rfl
  · intro h
    cases h

/-- A key of one byte too many is refused as a seed, before it comes to be refused as a key. -/
theorem long_owner_strays :
    GoesThrough (.removeLiquidity (.int 0)) Address.ledger Config.default
      (.bytes (List.replicate 32 0)) ⟨.int 0, .int 0⟩ ∧
    (ProgramCall.removeLiquidity (.int 0)).encode Config.default (.bytes (List.replicate 32 0))
      (.bytes (List.replicate 33 0)) ⟨.int 0, .int 0⟩ = .error (.address (.longSeed 33)) ∧
    (Error.address (.longSeed 33)).sort = .seedLimits ∧
    ¬ Rejects (.bytes (List.replicate 33 0)) (.error (.address (.longSeed 33))) := by
  have htouched (owner : Value) : touched owner (.removeLiquidity (.int 0)) =
      [.pool (.int 0), .userShares owner (.int 0)] := rfl
  obtain ⟨pool, hpool⟩ := pool_of_goesThrough goesThrough_zeros htouched
  have haddresses : addresses Address.ledger (.bytes (List.replicate 32 0))
      (touched (.bytes (List.replicate 33 0)) (.removeLiquidity (.int 0))) =
        .error (.address (.longSeed 33)) := by
    rw [htouched, addresses, hpool]
    rfl
  refine ⟨goesThrough_zeros, encodeWith_of_addresses haddresses, rfl, ?_⟩
  rintro ⟨_, ⟨⟩, hvalue, -⟩
  exact Bool.false_ne_true (hvalue rfl)

end ProgramCall

end LedgerWire
