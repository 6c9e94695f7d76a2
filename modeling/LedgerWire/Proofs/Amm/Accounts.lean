import LedgerWire.Amm.Program
import LedgerWire.Proofs.Address.Seeds

/-!
# The accounts of a program have different addresses

Seeds are digested one after the other, without their lengths. What is digested for an account of the
exchange program tells them apart all the same: the kinds of accounts differ in length, the tags and
identities of a kind do not, and what is left is the owner. So two accounts share an address only if
two different inputs have one digest.
-/

namespace LedgerWire

theorem Bytes.ofNatBE_inj (size : Nat) {m n : Nat} (hm : m < 256 ^ size) (hn : n < 256 ^ size) :
    Bytes.ofNatBE size m = Bytes.ofNatBE size n ↔ m = n := by
  refine ⟨fun h => ?_, fun h => by rw [h]⟩
  have h := congrArg Bytes.toNatBE h
  rwa [Bytes.toNatBE_ofNatBE, Bytes.toNatBE_ofNatBE, Nat.mod_eq_of_lt hm, Nat.mod_eq_of_lt hn] at h

theorem Seed.ofId_nat {n : Nat} (h : n < 2 ^ 128) : Seed.ofId (.int n) = .ok (Bytes.ofNatBE 16 n) :=
  if_pos (by simpa using h)

namespace ProgramAccount

/-- What is digested for the address of an account with a bump. -/
def input (account : ProgramAccount) (program : Value) (bump : UInt8) : Except Error Bytes := do
  let seeds ← account.seeds
  let id ← (Address.programOf program).mapError .address
  pure (Address.preimage (seeds ++ [[bump]]) id)

/-- An account of any owner of at most 32 bytes, for any identity of 128 bits. -/
inductive InRange : ProgramAccount → Prop
  | state : InRange .state
  | pool {id : Nat} (h : id < 2 ^ 128) : InRange (.pool (.int id))
  | userShares {owner : Bytes} {id : Nat} (ho : owner.length ≤ 32) (h : id < 2 ^ 128) :
    InRange (.userShares (.bytes owner) (.int id))

variable {a a' : ProgramAccount} {program program' : Value} {id id' : Bytes}
  {seeds seeds' : List Bytes}

/-! ### The seeds of an account -/

theorem seeds_pool {n : Nat} (h : n < 2 ^ 128) :
    (pool (.int n)).seeds = .ok [asciiBytes "pool", Bytes.ofNatBE 16 n] := by
  show ((Seed.ofId (.int n)).mapError Error.seed >>= fun id => pure [asciiBytes "pool", id]) = _
  rw [Seed.ofId_nat h]
  rfl

theorem seeds_userShares {owner : Bytes} {n : Nat} (h : n < 2 ^ 128) :
    (userShares (.bytes owner) (.int n)).seeds =
      .ok [asciiBytes "user_pool_shares", owner, Bytes.ofNatBE 16 n] := by
  show ((Seed.ofId (.int n)).mapError Error.seed >>= fun id =>
    pure [asciiBytes "user_pool_shares", owner, id]) = _
  rw [Seed.ofId_nat h]
  rfl

/-- Accounts are within the limits of seeds. -/
theorem InRange.exists_seeds (ha : InRange a) :
    ∃ seeds, a.seeds = .ok seeds ∧ Address.WithinLimits seeds := by
  have hid (n : Nat) : (Bytes.ofNatBE 16 n).length ≤ Address.maxSeedLength := by
    simp [Address.maxSeedLength]
  cases ha with
  | state => exact ⟨_, rfl, ⟨by decide, by decide⟩⟩
  | @pool n h =>
    refine ⟨_, seeds_pool h, ⟨(by decide : 2 < 16), ?_⟩⟩
    simp only [List.forall_mem_cons, hid]
    decide
  | @userShares owner n ho h =>
    refine ⟨_, seeds_userShares h, ⟨(by decide : 3 < 16), ?_⟩⟩
    simp only [List.forall_mem_cons, hid]
    exact ⟨by decide, ho, trivial, nofun⟩

theorem length_flatten_pool (n : Nat) :
    [asciiBytes "pool", Bytes.ofNatBE 16 n].flatten.length = 20 := by
  simp [asciiBytes]

theorem length_flatten_userShares (owner : Bytes) (n : Nat) :
    [asciiBytes "user_pool_shares", owner, Bytes.ofNatBE 16 n].flatten.length =
      owner.length + 32 := by
  simp [asciiBytes]

/-- Behind the tag stands the owner, if there is one, and then the identity. -/
theorem flatten_inj {tag : Bytes} (owner owner' : Bytes) {n n' : Nat} (hn : n < 2 ^ 128)
    (hn' : n' < 2 ^ 128)
    (h : [tag, owner, Bytes.ofNatBE 16 n].flatten = [tag, owner', Bytes.ofNatBE 16 n'].flatten) :
    owner = owner' ∧ n = n' := by
  simp only [List.flatten_cons, List.flatten_nil, List.append_nil, List.append_cancel_left_eq] at h
  obtain ⟨howner, hid⟩ := List.append_inj' h (by simp)
  exact ⟨howner, (Bytes.ofNatBE_inj 16 (by omega) (by omega)).mp hid⟩

/-- The seeds of an account, one after the other, tell which account it is: the kinds differ in
length. -/
theorem eq_of_flatten_eq (ha : InRange a) (ha' : InRange a') (hs : a.seeds = .ok seeds)
    (hs' : a'.seeds = .ok seeds') (h : seeds.flatten = seeds'.flatten) : a = a' := by
  have hlen := congrArg List.length h
  cases ha with
  | state =>
    cases hs
    cases ha' with
    | state => rfl
    | pool hn' =>
      cases (seeds_pool hn').symm.trans hs'
      rw [length_flatten_pool] at hlen
      cases hlen
    | userShares ho' hn' =>
      cases (seeds_userShares hn').symm.trans hs'
      rw [length_flatten_userShares] at hlen
      cases hlen
  | pool hn =>
    cases (seeds_pool hn).symm.trans hs
    rw [length_flatten_pool] at hlen
    cases ha' with
    | state =>
      cases hs'
      cases hlen
    | pool hn' =>
      cases (seeds_pool hn').symm.trans hs'
      obtain ⟨-, rfl⟩ := flatten_inj [] [] hn hn' h
      rfl
    | userShares ho' hn' =>
      cases (seeds_userShares hn').symm.trans hs'
      rw [length_flatten_userShares] at hlen
      omega
  | userShares ho hn =>
    cases (seeds_userShares hn).symm.trans hs
    rw [length_flatten_userShares] at hlen
    cases ha' with
    | state =>
      cases hs'
      cases hlen
    | pool hn' =>
      cases (seeds_pool hn').symm.trans hs'
      rw [length_flatten_pool] at hlen
      omega
    | userShares ho' hn' =>
      cases (seeds_userShares hn').symm.trans hs'
      obtain ⟨rfl, rfl⟩ := flatten_inj _ _ hn hn' h
      rfl

/-! ### Addresses -/

theorem input_eq {bump : UInt8} (hs : a.seeds = .ok seeds)
    (hid : Address.programOf program = .ok id) :
    a.input program bump = .ok (Address.preimage (seeds ++ [[bump]]) id) := by
  unfold input
  rw [hs, hid]
  rfl

theorem address_eq (scheme : Address.Scheme) (hs : a.seeds = .ok seeds) (program : Value) :
    a.address scheme program =
      ((scheme.findFor (.list (seeds.map .bytes)) program).mapError Error.address).map (·.1) := by
  unfold address
  rw [hs]
  rfl

/-- The address of an account is the digest of an input of the account, unless every bump fails. -/
theorem address_cases (scheme : Address.Scheme) (ha : InRange a)
    (hid : Address.programOf program = .ok id) :
    (∃ bump x, a.input program bump = .ok x ∧ scheme.onCurve (scheme.hash x) = false ∧
      a.address scheme program = .ok (scheme.hash x)) ∨
    (a.address scheme program = .error (.address .noBump) ∧
      ∀ bump, ∃ x, a.input program bump = .ok x ∧ scheme.onCurve (scheme.hash x) = true) := by
  obtain ⟨seeds, hs, hlimits⟩ := ha.exists_seeds
  have hadmits := hlimits.admits hid scheme
  rw [address_eq scheme hs]
  cases hsearch : scheme.search seeds id 256 with
  | some found =>
    obtain ⟨address, bump⟩ := found
    obtain ⟨-, hcreate, -⟩ := Address.Scheme.search_eq_some.mp hsearch
    obtain ⟨hoff, rfl⟩ := Address.Scheme.create_eq_ok.mp hcreate
    refine .inl ⟨UInt8.ofNat bump, _, input_eq hs hid, hoff, ?_⟩
    rw [(hadmits.found _).mpr hsearch]
    rfl
  | none =>
    refine .inr ⟨?_, fun bump => ⟨_, input_eq hs hid, ?_⟩⟩
    · rw [hadmits.exhausted.mpr hsearch]
      rfl
    · have hfail := Address.Scheme.search_eq_none.mp hsearch bump.toNat bump.toNat_lt
      rw [UInt8.ofNat_toNat] at hfail
      exact (Address.Scheme.create_eq_error.mp hfail).1

/-- Accounts of one kind, program, owner and identity only have an input in common, with one bump. So
an address is that of no other account, unless two different inputs have one digest. -/
theorem never_alias (ha : InRange a) (ha' : InRange a')
    (hid : Address.programOf program = .ok id) (hid' : Address.programOf program' = .ok id') :
    (∀ bump bump', ∃ x x', a.input program bump = .ok x ∧ a'.input program' bump' = .ok x' ∧
      (x = x' ↔ a = a' ∧ id = id' ∧ bump = bump')) ∧
    ∀ scheme : Address.Scheme,
      ((∃ address, a.address scheme program = .ok address) ∨
        a.address scheme program = .error (.address .noBump) ∧
          ∀ bump, ∃ x, a.input program bump = .ok x ∧ scheme.onCurve (scheme.hash x) = true) ∧
      ∀ address, a.address scheme program = .ok address →
        a'.address scheme program' = .ok address →
        a = a' ∧ id = id' ∨
          ∃ bump bump' x x', a.input program bump = .ok x ∧ a'.input program' bump' = .ok x' ∧
            x ≠ x' ∧ scheme.hash x = scheme.hash x' := by
  have hinput (bump bump' : UInt8) : ∃ x x', a.input program bump = .ok x ∧
      a'.input program' bump' = .ok x' ∧ (x = x' ↔ a = a' ∧ id = id' ∧ bump = bump') := by
    obtain ⟨seeds, hs, -⟩ := ha.exists_seeds
    obtain ⟨seeds', hs', -⟩ := ha'.exists_seeds
    have hlen := (Address.length_of_programOf hid).trans (Address.length_of_programOf hid').symm
    refine ⟨_, _, input_eq hs hid, input_eq hs' hid', (Address.preimage_inj hlen).trans ?_⟩
    constructor
    · rintro ⟨h, hbump, heq⟩
      exact ⟨eq_of_flatten_eq ha ha' hs hs' h, heq, hbump⟩
    · rintro ⟨rfl, heq, hbump⟩
      cases hs.symm.trans hs'
      exact ⟨rfl, hbump, heq⟩
  refine ⟨hinput, fun scheme => ⟨?_, fun address h h' => ?_⟩⟩
  · rcases address_cases scheme ha hid with ⟨bump, x, -, -, h⟩ | h
    · exact .inl ⟨_, h⟩
    · exact .inr h
  · rcases address_cases scheme ha hid with ⟨bump, x, hx, -, hok⟩ | ⟨herror, -⟩
    · rcases address_cases scheme ha' hid' with ⟨bump', x', hx', -, hok'⟩ | ⟨herror, -⟩
      · obtain ⟨y, y', hy, hy', heq⟩ := hinput bump bump'
        cases hx.symm.trans hy
        cases hx'.symm.trans hy'
        by_cases hxx : x = x'
        · exact .inl ⟨(heq.mp hxx).1, (heq.mp hxx).2.1⟩
        · refine .inr ⟨bump, bump', x, x', hx, hx', hxx, ?_⟩
          exact Except.ok.inj ((hok.symm.trans h).trans (h'.symm.trans hok'))
      · cases herror.symm.trans h'
    · cases herror.symm.trans h

/-- Two pools of one program, and the shares of an owner whose name is the tag of the pools. -/
theorem never_alias_pools :
    let program := Value.bytes (List.replicate 32 0)
    (∃ x x', (pool (.int 0)).input program 255 = .ok x ∧ (pool (.int 1)).input program 255 = .ok x' ∧
      x ≠ x') ∧
    ∃ x x', (pool (.int 0)).input program 255 = .ok x ∧
      (userShares (.bytes (asciiBytes "pool")) (.int 0)).input program 255 = .ok x' ∧ x ≠ x' := by
  have hid : Address.programOf (.bytes (List.replicate 32 0)) = .ok (List.replicate 32 0) := rfl
  have hpool : InRange (pool (.int 0)) := .pool (by decide : 0 < 2 ^ 128)
  have hpool' : InRange (pool (.int 1)) := .pool (by decide : 1 < 2 ^ 128)
  have hshares : InRange (userShares (.bytes (asciiBytes "pool")) (.int 0)) :=
    .userShares (by decide) (by decide : 0 < 2 ^ 128)
  obtain ⟨x, x', hx, hx', h⟩ := (never_alias hpool hpool' hid hid).1 255 255
  obtain ⟨y, y', hy, hy', h'⟩ := (never_alias hpool hshares hid hid).1 255 255
  refine ⟨⟨x, x', hx, hx', fun heq => ?_⟩, ⟨y, y', hy, hy', fun heq => ?_⟩⟩
  · cases (h.mp heq).1
  · cases (h'.mp heq).1

end ProgramAccount

end LedgerWire
