import LedgerWire.Address.Derived
import LedgerWire.Proofs.Result

/-!
# The search for a bump

`Scheme.find` and `Scheme.create` are two views of one derivation. What the search finds is the address
for the seeds with the greatest bump that counts, and it finds nothing just where no bump counts. The
search checks fifteen seeds without their bump, `create` checks sixteen with it: for lists of byte
strings the limits are the same.
-/

namespace LedgerWire

/-- There are too many seeds, or one is too long. -/
def AddressFault.exceedsLimits : AddressFault → Bool
  | .tooManySeeds _ => true
  | .longSeed _ => true
  | .noRoomForBump => true
  | _ => false

namespace Address

variable {scheme : Scheme} {seeds : List Bytes} {program : Bytes}

/-! ### One candidate -/

namespace Scheme

theorem create_eq_ok {address : Bytes} : scheme.create seeds program = .ok address ↔
    scheme.onCurve (scheme.candidate seeds program) = false ∧
      scheme.candidate seeds program = address := by
  unfold create
  by_cases h : scheme.onCurve (scheme.candidate seeds program) <;> simp [h]

theorem create_eq_error {fault : AddressFault} : scheme.create seeds program = .error fault ↔
    scheme.onCurve (scheme.candidate seeds program) = true ∧ .onCurve = fault := by
  unfold create
  by_cases h : scheme.onCurve (scheme.candidate seeds program) <;> simp [h]

/-! ### The search from above -/

theorem search_succ_ok {bump : Nat} {address : Bytes}
    (h : scheme.create (seeds ++ [[UInt8.ofNat bump]]) program = .ok address) :
    scheme.search seeds program (bump + 1) = some (address, bump) := by
  obtain ⟨hoff, rfl⟩ := create_eq_ok.mp h
  exact if_neg (by simp [hoff])

theorem search_succ_error {bump : Nat}
    (h : scheme.create (seeds ++ [[UInt8.ofNat bump]]) program = .error .onCurve) :
    scheme.search seeds program (bump + 1) = scheme.search seeds program bump :=
  if_pos (create_eq_error.mp h).1

/-- A bump counts, or its digest is on the curve. -/
theorem create_cases (scheme : Scheme) (seeds : List Bytes) (program : Bytes) :
    (∃ address, scheme.create seeds program = .ok address) ∨
      scheme.create seeds program = .error .onCurve := by
  by_cases h : scheme.onCurve (scheme.candidate seeds program)
  · exact .inr (create_eq_error.mpr ⟨h, rfl⟩)
  · exact .inl ⟨_, create_eq_ok.mpr ⟨by simpa using h, rfl⟩⟩

/-- The search passes over every bump that does not count, and stops at the first that does. -/
theorem search_eq_some {bound bump : Nat} {address : Bytes} :
    scheme.search seeds program bound = some (address, bump) ↔
      bump < bound ∧ scheme.create (seeds ++ [[UInt8.ofNat bump]]) program = .ok address ∧
        ∀ c, bump < c → c < bound →
          scheme.create (seeds ++ [[UInt8.ofNat c]]) program = .error .onCurve := by
  induction bound with
  | zero => simp [search]
  | succ top ih =>
    rcases create_cases scheme (seeds ++ [[UInt8.ofNat top]]) program with ⟨found, htop⟩ | htop
    · rw [search_succ_ok htop]
      constructor
      · rintro ⟨⟩
        exact ⟨Nat.lt_succ_self _, htop, fun c h1 h2 => by omega⟩
      · rintro ⟨hlt, hok, habove⟩
        rcases Nat.lt_succ_iff_lt_or_eq.mp hlt with hlt | rfl
        · -- a smaller bump needs the topmost one to be passed over
          cases htop.symm.trans (habove top hlt (Nat.lt_succ_self _))
        · cases htop.symm.trans hok
          rfl
    · rw [search_succ_error htop, ih]
      constructor
      · rintro ⟨hlt, hok, habove⟩
        refine ⟨by omega, hok, fun c h1 h2 => ?_⟩
        rcases Nat.lt_succ_iff_lt_or_eq.mp h2 with h2 | rfl
        · exact habove c h1 h2
        · exact htop
      · rintro ⟨hlt, hok, habove⟩
        refine ⟨?_, hok, fun c h1 h2 => habove c h1 (by omega)⟩
        rcases Nat.lt_succ_iff_lt_or_eq.mp hlt with hlt | rfl
        · exact hlt
        · cases htop.symm.trans hok

theorem search_eq_none {bound : Nat} : scheme.search seeds program bound = none ↔
    ∀ c < bound, scheme.create (seeds ++ [[UInt8.ofNat c]]) program = .error .onCurve := by
  induction bound with
  | zero => simp [search]
  | succ top ih =>
    rcases create_cases scheme (seeds ++ [[UInt8.ofNat top]]) program with ⟨found, htop⟩ | htop
    · rw [search_succ_ok htop]
      refine iff_of_false nofun fun h => ?_
      cases htop.symm.trans (h top (Nat.lt_succ_self _))
    · rw [search_succ_error htop, ih]
      constructor
      · intro h c hc
        rcases Nat.lt_succ_iff_lt_or_eq.mp hc with hc | rfl
        · exact h c hc
        · exact htop
      · intro h c hc
        exact h c (by omega)

theorem find_eq_ok {found : Bytes × Nat} : scheme.find seeds program = .ok found ↔
    seeds.length < maxSeeds ∧ scheme.search seeds program 256 = some found := by
  unfold find
  by_cases hroom : maxSeeds ≤ seeds.length
  · rw [if_pos hroom]
    exact iff_of_false nofun fun h => absurd h.1 (Nat.not_lt.mpr hroom)
  · rw [if_neg hroom]
    cases scheme.search seeds program 256 <;> simp [Nat.not_le.mp hroom]

theorem find_eq_error {fault : AddressFault} : scheme.find seeds program = .error fault ↔
    maxSeeds ≤ seeds.length ∧ fault = .noRoomForBump ∨
      seeds.length < maxSeeds ∧ scheme.search seeds program 256 = none ∧ fault = .noBump := by
  unfold find
  by_cases hroom : maxSeeds ≤ seeds.length
  · simp [hroom, Nat.not_lt.mpr hroom, eq_comm]
  · rw [if_neg hroom]
    cases scheme.search seeds program 256 <;> simp [hroom, Nat.not_le.mp hroom, eq_comm]

end Scheme

/-! ### Seeds and programs that are given as values -/

theorem programOf_error {given : Value} {fault : AddressFault} (h : programOf given = .error fault) :
    (∃ kind, .programKind kind = fault) ∨ (∃ got, .programLength got = fault) ∨
      ∃ reason, .hex reason = fault := by
  cases given with
  | text t =>
    obtain ⟨reason, -, hf⟩ := mapError_eq_error.mp h
    exact .inr (.inr ⟨reason, hf⟩)
  | bytes bs =>
    obtain ⟨-, hf⟩ := ite_eq_error.mp h
    exact .inr (.inl ⟨_, hf⟩)
  | _ =>
    cases h
    exact .inl ⟨_, rfl⟩

theorem seedOf_error {item : Value} {fault : AddressFault} (h : seedOf item = .error fault) :
    (∃ kind, .seedKind kind = fault) ∨ ∃ got, .longSeed got = fault := by
  cases item with
  | bytes bs =>
    obtain ⟨-, hf⟩ := ite_eq_error.mp h
    exact .inr ⟨_, hf⟩
  | _ =>
    cases h
    exact .inl ⟨_, rfl⟩

theorem seedList_error {items : List Value} {fault : AddressFault}
    (h : seedList items = .error fault) :
    (∃ kind, .seedKind kind = fault) ∨ ∃ got, .longSeed got = fault := by
  induction items with
  | nil => cases h
  | cons item items ih =>
    rcases bind_eq_error.mp h with h | ⟨seed, -, h⟩
    · exact seedOf_error h
    · rcases bind_eq_error.mp h with h | ⟨seeds, -, h⟩
      · exact ih h
      · cases h

theorem length_of_seedList {items : List Value} {seeds : List Bytes}
    (h : seedList items = .ok seeds) : seeds.length = items.length := by
  induction items generalizing seeds with
  | nil =>
    cases h
    rfl
  | cons item items ih =>
    simp only [seedList, bind_eq_ok] at h
    obtain ⟨seed, -, rest, hrest, h⟩ := h
    cases h
    exact congrArg (· + 1) (ih hrest)

theorem seedList_append_bump (items : List Value) (bump : UInt8) :
    seedList (items ++ [.bytes [bump]]) = (seedList items).map (· ++ [[bump]]) := by
  induction items with
  | nil => rfl
  | cons item items ih =>
    show (seedOf item >>= fun seed => seedList (items ++ [.bytes [bump]]) >>= fun seeds =>
      pure (seed :: seeds)) = (seedOf item >>= fun seed => seedList items >>= fun seeds =>
      pure (seed :: seeds)).map _
    rw [ih]
    cases seedOf item with
    | error fault => rfl
    | ok seed =>
      cases seedList items with
      | error fault => rfl
      | ok seeds => rfl

/-- Byte strings are seeds but for their lengths. -/
theorem seedList_bytes (seeds : List Bytes) :
    ((∀ seed ∈ seeds, seed.length ≤ maxSeedLength) ∧
        seedList (seeds.map .bytes) = .ok seeds) ∨
      ∃ seed ∈ seeds, maxSeedLength < seed.length ∧
        seedList (seeds.map .bytes) = .error (.longSeed seed.length) := by
  induction seeds with
  | nil => exact .inl ⟨by simp, rfl⟩
  | cons seed seeds ih =>
    have hcons : seedList ((seed :: seeds).map .bytes) = (seedOf (.bytes seed) >>= fun seed =>
      seedList (seeds.map .bytes) >>= fun seeds => pure (seed :: seeds)) := rfl
    by_cases hlong : maxSeedLength < seed.length
    · have hseed : seedOf (.bytes seed) = .error (.longSeed seed.length) :=
        if_neg (Nat.not_le.mpr hlong)
      exact .inr ⟨seed, List.mem_cons_self, hlong, by rw [hcons, hseed]; rfl⟩
    · have hseed : seedOf (.bytes seed) = .ok seed := if_pos (Nat.not_lt.mp hlong)
      rcases ih with ⟨hall, h⟩ | ⟨seed', hmem, hlong', h⟩
      · exact .inl ⟨List.forall_mem_cons.mpr ⟨Nat.not_lt.mp hlong, hall⟩, by
          rw [hcons, hseed, h]; rfl⟩
      · exact .inr ⟨seed', List.mem_cons_of_mem _ hmem, hlong', by rw [hcons, hseed, h]; rfl⟩

/-! ### Finding and creating -/

namespace Scheme

variable {items : List Value} {given : Value}

theorem seedsOf_of_le (h : items.length ≤ maxSeeds) : seedsOf (.list items) = seedList items :=
  if_neg (Nat.not_lt.mpr h)

theorem seedsOf_of_lt (h : maxSeeds < items.length) :
    seedsOf (.list items) = .error (.tooManySeeds items.length) := if_pos h

theorem seedsOf_append_bump (h : items.length < maxSeeds) (bump : UInt8) :
    seedsOf (.list (items ++ [.bytes [bump]])) = (seedList items).map (· ++ [[bump]]) := by
  rw [seedsOf_of_le (by rw [List.length_append]; exact h), seedList_append_bump]

theorem findFor_of_seedsOf {seeds : List Bytes} {id : Bytes} {v : Value} (scheme : Scheme)
    (hid : programOf given = .ok id) (hseeds : seedsOf v = .ok seeds) :
    scheme.findFor v given = scheme.find seeds id := by
  unfold findFor
  rw [hid]
  show (seedsOf v >>= fun seeds => scheme.find seeds id) = _
  rw [hseeds]
  rfl

theorem createFor_of_seedsOf {seeds : List Bytes} {id : Bytes} {v : Value} (scheme : Scheme)
    (hid : programOf given = .ok id) (hseeds : seedsOf v = .ok seeds) :
    scheme.createFor v given = scheme.create seeds id := by
  unfold createFor
  rw [hid]
  show (seedsOf v >>= fun seeds => scheme.create seeds id) = _
  rw [hseeds]
  rfl

/-- Program and seeds are looked at in the same way, before anything is digested. -/
theorem error_of_seedsOf {id : Bytes} {v : Value} {fault : AddressFault} (scheme : Scheme)
    (hid : programOf given = .ok id) (hseeds : seedsOf v = .error fault) :
    scheme.findFor v given = .error fault ∧ scheme.createFor v given = .error fault := by
  unfold findFor createFor
  rw [hid]
  show (seedsOf v >>= fun seeds => scheme.find seeds id) = _ ∧
    (seedsOf v >>= fun seeds => scheme.create seeds id) = _
  rw [hseeds]
  exact ⟨rfl, rfl⟩

theorem error_of_programOf {v : Value} {fault : AddressFault} (scheme : Scheme)
    (hid : programOf given = .error fault) :
    scheme.findFor v given = .error fault ∧ scheme.createFor v given = .error fault := by
  unfold findFor createFor
  rw [hid]
  exact ⟨rfl, rfl⟩

/-- What is created does not lie on the curve. -/
theorem off_curve_of_createFor {v : Value} {address : Bytes}
    (h : scheme.createFor v given = .ok address) : scheme.onCurve address = false := by
  simp only [createFor, bind_eq_ok] at h
  obtain ⟨id, -, seeds, -, h⟩ := h
  obtain ⟨hoff, rfl⟩ := create_eq_ok.mp h
  exact hoff

theorem off_curve_of_findFor {v : Value} {address : Bytes} {bump : Nat}
    (h : scheme.findFor v given = .ok (address, bump)) : scheme.onCurve address = false := by
  simp only [findFor, bind_eq_ok] at h
  obtain ⟨id, -, seeds, -, h⟩ := h
  obtain ⟨-, hcreate, -⟩ := search_eq_some.mp (find_eq_ok.mp h).2
  obtain ⟨hoff, rfl⟩ := create_eq_ok.mp hcreate
  exact hoff

/-- What is found is a digest. -/
theorem hash_of_findFor {v : Value} {address : Bytes} {bump : Nat}
    (h : scheme.findFor v given = .ok (address, bump)) : ∃ x, scheme.hash x = address := by
  simp only [findFor, bind_eq_ok] at h
  obtain ⟨id, -, seeds, -, h⟩ := h
  obtain ⟨-, hcreate, -⟩ := search_eq_some.mp (find_eq_ok.mp h).2
  exact ⟨_, (create_eq_ok.mp hcreate).2⟩

/-- What is found with the bump that is searched for, and created with one that is given: both come
down to the same seeds and program. -/
structure Admits (scheme : Scheme) (items : List Value) (given : Value) (seeds : List Bytes)
    (id : Bytes) : Prop where
  found : ∀ found, scheme.findFor (.list items) given = .ok found ↔
    scheme.search seeds id 256 = some found
  exhausted : scheme.findFor (.list items) given = .error .noBump ↔
    scheme.search seeds id 256 = none
  refused : ∀ fault, scheme.findFor (.list items) given = .error fault → fault = .noBump
  created : ∀ bump : UInt8, scheme.createFor (.list (items ++ [.bytes [bump]])) given =
    scheme.create (seeds ++ [[bump]]) id

/-- Program or seeds are refused before anything is digested, whether a bump is given or not. -/
structure Refuses (scheme : Scheme) (items : List Value) (given : Value)
    (fault fault' : AddressFault) : Prop where
  found : scheme.findFor (.list items) given = .error fault
  created : ∀ bump : UInt8, scheme.createFor (.list (items ++ [.bytes [bump]])) given = .error fault'
  found_ne : fault ≠ .noBump
  created_ne : fault' ≠ .onCurve
  /-- The bump is counted before the seeds are looked at. -/
  exceeds : fault'.exceedsLimits = true ↔
    fault.exceedsLimits = true ∨ items.length = maxSeeds ∧ ∃ kind, fault = .seedKind kind

theorem admits_of_seedList {seeds : List Bytes} {id : Bytes} (scheme : Scheme)
    (hid : programOf given = .ok id) (hroom : items.length < maxSeeds)
    (hseeds : seedList items = .ok seeds) : Admits scheme items given seeds id := by
  have hlen : seeds.length < maxSeeds := by rwa [length_of_seedList hseeds]
  have hfind : scheme.findFor (.list items) given = scheme.find seeds id :=
    findFor_of_seedsOf scheme hid ((seedsOf_of_le (Nat.le_of_lt hroom)).trans hseeds)
  refine ⟨fun found => ?_, ?_, fun fault hfault => ?_, fun bump => ?_⟩
  · rw [hfind, find_eq_ok]
    exact and_iff_right hlen
  · rw [hfind, find_eq_error]
    simp [hlen]
  · rw [hfind, find_eq_error] at hfault
    rcases hfault with ⟨hmany, -⟩ | ⟨-, -, rfl⟩
    · exact absurd hlen (Nat.not_lt.mpr hmany)
    · rfl
  · refine createFor_of_seedsOf scheme hid ?_
    rw [seedsOf_append_bump hroom, hseeds]
    rfl

theorem refuses_of_programOf {fault : AddressFault} (scheme : Scheme) (items : List Value)
    (hid : programOf given = .error fault) : Refuses scheme items given fault fault := by
  have hne : fault ≠ .noBump ∧ fault ≠ .onCurve ∧ ∀ kind, fault ≠ .seedKind kind := by
    rcases programOf_error hid with ⟨kind, rfl⟩ | ⟨got, rfl⟩ | ⟨reason, rfl⟩ <;> simp
  exact ⟨(error_of_programOf scheme hid).1, fun _ => (error_of_programOf scheme hid).2, hne.1,
    hne.2.1, by simp [hne.2.2]⟩

theorem refuses_of_seedList {id : Bytes} {fault : AddressFault} (scheme : Scheme)
    (hid : programOf given = .ok id) (hroom : items.length < maxSeeds)
    (hseeds : seedList items = .error fault) : Refuses scheme items given fault fault := by
  have hle := seedsOf_of_le (Nat.le_of_lt hroom)
  refine ⟨(error_of_seedsOf scheme hid (hle.trans hseeds)).1, fun bump => ?_, ?_, ?_, ?_⟩
  · refine (error_of_seedsOf scheme hid ?_).2
    rw [seedsOf_append_bump hroom, hseeds]
    rfl
  · rcases seedList_error hseeds with ⟨kind, rfl⟩ | ⟨got, rfl⟩ <;> nofun
  · rcases seedList_error hseeds with ⟨kind, rfl⟩ | ⟨got, rfl⟩ <;> nofun
  · simp [Nat.ne_of_lt hroom]

/-- With sixteen seeds there is no room for a bump. -/
theorem refuses_of_length {id : Bytes} (scheme : Scheme) (items : List Value)
    (hid : programOf given = .ok id) (hroom : maxSeeds ≤ items.length) :
    ∃ fault, Refuses scheme items given fault (.tooManySeeds (items.length + 1)) := by
  have hcreate (bump : UInt8) : scheme.createFor (.list (items ++ [.bytes [bump]])) given =
      .error (.tooManySeeds (items.length + 1)) := by
    refine (error_of_seedsOf scheme hid ?_).2
    rw [seedsOf_of_lt (by rw [List.length_append]; exact Nat.lt_succ_of_le hroom),
      List.length_append]
    rfl
  rcases Nat.lt_or_eq_of_le hroom with hlt | heq
  · refine ⟨_, (error_of_seedsOf scheme hid (seedsOf_of_lt hlt)).1, hcreate, nofun, nofun, ?_⟩
    exact iff_of_true rfl (.inl rfl)
  · have hle := seedsOf_of_le (Nat.le_of_eq heq.symm)
    cases hseeds : seedList items with
    | error fault =>
      refine ⟨fault, (error_of_seedsOf scheme hid (hle.trans hseeds)).1, hcreate, ?_, nofun, ?_⟩
      · rcases seedList_error hseeds with ⟨kind, rfl⟩ | ⟨got, rfl⟩ <;> nofun
      · rcases seedList_error hseeds with ⟨kind, rfl⟩ | ⟨got, rfl⟩
        · exact iff_of_true rfl (.inr ⟨heq.symm, kind, rfl⟩)
        · exact iff_of_true rfl (.inl rfl)
    | ok seeds =>
      refine ⟨.noRoomForBump, ?_, hcreate, nofun, nofun, iff_of_true rfl (.inl rfl)⟩
      rw [findFor_of_seedsOf scheme hid (hle.trans hseeds)]
      exact if_pos (by rw [length_of_seedList hseeds]; exact hroom)

theorem admits_or_refuses (scheme : Scheme) (items : List Value) (given : Value) :
    (∃ seeds id, Admits scheme items given seeds id) ∨
      ∃ fault fault', Refuses scheme items given fault fault' := by
  cases hid : programOf given with
  | error fault => exact .inr ⟨_, _, refuses_of_programOf scheme items hid⟩
  | ok id =>
    rcases Nat.lt_or_ge items.length maxSeeds with hroom | hroom
    · cases hseeds : seedList items with
      | error fault => exact .inr ⟨_, _, refuses_of_seedList scheme hid hroom hseeds⟩
      | ok seeds => exact .inl ⟨_, _, admits_of_seedList scheme hid hroom hseeds⟩
    · obtain ⟨fault, h⟩ := refuses_of_length scheme items hid hroom
      exact .inr ⟨_, _, h⟩

/-! ### The two agree -/

/-- What is found is the address for the greatest bump that counts. -/
theorem findFor_eq_ok {address : Bytes} {bump : Nat} :
    scheme.findFor (.list items) given = .ok (address, bump) ↔ bump < 256 ∧
      scheme.createFor (.list (items ++ [.bytes [UInt8.ofNat bump]])) given = .ok address ∧
      ∀ c, bump < c → c < 256 →
        scheme.createFor (.list (items ++ [.bytes [UInt8.ofNat c]])) given = .error .onCurve := by
  rcases admits_or_refuses scheme items given with ⟨seeds, id, h⟩ | ⟨fault, fault', h⟩
  · simp only [h.found, h.created, search_eq_some]
  · rw [h.found, h.created]
    exact iff_of_false nofun fun h => nomatch h.2.1

/-- Nothing is found just where no bump counts. -/
theorem findFor_eq_noBump : scheme.findFor (.list items) given = .error .noBump ↔
    ∀ c < 256,
      scheme.createFor (.list (items ++ [.bytes [UInt8.ofNat c]])) given = .error .onCurve := by
  rcases admits_or_refuses scheme items given with ⟨seeds, id, h⟩ | ⟨fault, fault', h⟩
  · simp only [h.exhausted, h.created, search_eq_none]
  · rw [h.found]
    refine iff_of_false (fun he => h.found_ne (Except.error.inj he)) fun hall => ?_
    have := hall 0 (by decide)
    rw [h.created] at this
    exact h.created_ne (Except.error.inj this)

/-- The answer is that the limits of seeds are exceeded. -/
def Exceeds {α : Type} (r : Except AddressFault α) : Prop :=
  ∃ fault, r = .error fault ∧ fault.exceedsLimits = true

/-- The limits are the same for the search and with the bump, but for a list of sixteen items: `create`
counts the bump before it comes to an item that is no byte string. -/
theorem exceeds_createFor {bump : UInt8} :
    Exceeds (scheme.createFor (.list (items ++ [.bytes [bump]])) given) ↔
      Exceeds (scheme.findFor (.list items) given) ∨ items.length = maxSeeds ∧
        ∃ kind, scheme.findFor (.list items) given = .error (.seedKind kind) := by
  unfold Exceeds
  rcases admits_or_refuses scheme items given with ⟨seeds, id, h⟩ | ⟨fault, fault', h⟩
  · refine iff_of_false ?_ ?_
    · rintro ⟨fault, he, hx⟩
      rw [h.created, create_eq_error] at he
      obtain ⟨-, rfl⟩ := he
      cases hx
    · rintro (⟨fault, he, hx⟩ | ⟨-, kind, he⟩)
      · cases h.refused _ he
        cases hx
      · cases h.refused _ he
  · rw [h.created, h.found]
    simp only [Except.error.injEq, exists_eq_left', h.exceeds]

theorem seedsOf_bytes_ne_seedKind (seeds : List Bytes) (kind : Kind) :
    seedsOf (.list (seeds.map .bytes)) ≠ .error (.seedKind kind) := by
  intro h
  rcases Nat.lt_or_ge maxSeeds (seeds.map Value.bytes).length with hlt | hle
  · cases (seedsOf_of_lt hlt).symm.trans h
  · rw [seedsOf_of_le hle] at h
    rcases seedList_bytes seeds with ⟨-, hok⟩ | ⟨seed, -, -, herror⟩
    · cases hok.symm.trans h
    · cases herror.symm.trans h

theorem findFor_bytes_ne_seedKind (scheme : Scheme) (seeds : List Bytes) (given : Value)
    (kind : Kind) : scheme.findFor (.list (seeds.map .bytes)) given ≠ .error (.seedKind kind) := by
  intro h
  rcases bind_eq_error.mp h with h | ⟨id, -, h⟩
  · rcases programOf_error h with ⟨_, h⟩ | ⟨_, h⟩ | ⟨_, h⟩ <;> cases h
  · rcases bind_eq_error.mp h with h | ⟨seeds', -, h⟩
    · exact seedsOf_bytes_ne_seedKind seeds kind h
    · rcases find_eq_error.mp h with ⟨-, h⟩ | ⟨-, -, h⟩ <;> cases h

/-- With a program that is accepted, byte strings exceed the limits if they are more than fifteen or one
of them has more than thirty-two bytes. -/
theorem exceeds_findFor_bytes (scheme : Scheme) (seeds : List Bytes) (given : Value) :
    Exceeds (scheme.findFor (.list (seeds.map .bytes)) given) ↔
      (∃ id, programOf given = .ok id) ∧
        (maxSeeds ≤ seeds.length ∨ ∃ seed ∈ seeds, maxSeedLength < seed.length) := by
  cases hid : programOf given with
  | error fault =>
    refine iff_of_false ?_ (by simp)
    rintro ⟨fault', he, hx⟩
    cases (error_of_programOf scheme hid).1.symm.trans he
    rcases programOf_error hid with ⟨kind, rfl⟩ | ⟨got, rfl⟩ | ⟨reason, rfl⟩ <;> cases hx
  | ok id =>
    rcases Nat.lt_or_ge seeds.length maxSeeds with hroom | hroom
    · have hroom' : (seeds.map Value.bytes).length < maxSeeds := by rwa [List.length_map]
      rcases seedList_bytes seeds with ⟨hall, hseeds⟩ | ⟨seed, hmem, hlong, hseeds⟩
      · refine iff_of_false ?_ ?_
        · rintro ⟨fault, he, hx⟩
          cases (admits_of_seedList scheme hid hroom' hseeds).refused _ he
          cases hx
        · rintro ⟨-, hmany | ⟨seed, hmem, hlong⟩⟩
          · exact absurd hroom (Nat.not_lt.mpr hmany)
          · exact absurd (hall seed hmem) (Nat.not_le.mpr hlong)
      · refine iff_of_true ⟨_, (refuses_of_seedList scheme hid hroom' hseeds).found, rfl⟩ ?_
        exact ⟨⟨id, rfl⟩, .inr ⟨seed, hmem, hlong⟩⟩
    · obtain ⟨fault, h⟩ := refuses_of_length scheme (seeds.map .bytes) hid
        (by rwa [List.length_map])
      refine iff_of_true ⟨fault, h.found, ?_⟩ ⟨⟨id, rfl⟩, .inl hroom⟩
      rcases h.exceeds.mp rfl with hx | ⟨hlen, kind, rfl⟩
      · exact hx
      · exact absurd h.found (findFor_bytes_ne_seedKind scheme seeds given kind)

/-- The search and the derivation with a bump that is given are two views of one thing, whatever digest
and test they are about; `derive` is the search with the program in front. -/
theorem findFor_agrees_with_createFor (scheme : Scheme) (seeds : List Bytes) (given : Value) :
    (∀ address bump, scheme.findFor (.list (seeds.map .bytes)) given = .ok (address, bump) ↔
      bump < 256 ∧
      scheme.createFor (.list ((seeds ++ [[UInt8.ofNat bump]]).map .bytes)) given = .ok address ∧
      ∀ c, bump < c → c < 256 →
        scheme.createFor (.list ((seeds ++ [[UInt8.ofNat c]]).map .bytes)) given =
          .error .onCurve) ∧
    (scheme.findFor (.list (seeds.map .bytes)) given = .error .noBump ↔
      ∀ c < 256, scheme.createFor (.list ((seeds ++ [[UInt8.ofNat c]]).map .bytes)) given =
        .error .onCurve) ∧
    (∀ bump : UInt8, Exceeds (scheme.findFor (.list (seeds.map .bytes)) given) ↔
      Exceeds (scheme.createFor (.list ((seeds ++ [[bump]]).map .bytes)) given)) ∧
    (Exceeds (scheme.findFor (.list (seeds.map .bytes)) given) ↔
      (∃ id, programOf given = .ok id) ∧ (15 < seeds.length ∨ ∃ seed ∈ seeds, 32 < seed.length)) ∧
    ∀ v, scheme.derive given v = scheme.findFor v given := by
  have hmap (bump : UInt8) :
      (seeds ++ [[bump]]).map Value.bytes = seeds.map Value.bytes ++ [.bytes [bump]] :=
    List.map_append
  simp only [hmap]
  refine ⟨fun address bump => findFor_eq_ok, findFor_eq_noBump, fun bump => ?_,
    exceeds_findFor_bytes scheme seeds given, fun v => rfl⟩
  rw [exceeds_createFor]
  exact ⟨.inl, fun h => h.resolve_right fun ⟨_, kind, hk⟩ =>
    findFor_bytes_ne_seedKind scheme seeds given kind hk⟩

end Scheme

end Address

end LedgerWire
