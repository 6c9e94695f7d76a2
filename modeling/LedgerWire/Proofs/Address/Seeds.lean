import LedgerWire.Proofs.Address.Search

/-!
# Seeds count one after the other

What is digested holds the seeds one after the other, without their lengths. Behind them stand the bump,
the identity of the program and the marker, each in a fixed size. So two derivations digest the same just
if their seeds make the same bytes one after the other and bump and program are the same: where one seed
ends and the next begins does not count, and everything else does.
-/

namespace LedgerWire

namespace Address

/-! ### What is digested -/

theorem length_of_programOf {given : Value} {id : Bytes} (h : programOf given = .ok id) :
    id.length = programSize := by
  cases given with
  | text t =>
    have h := mapError_eq_ok.mp h
    simp only [Hex.decodeExactly, Hex.decodeFitting, bind_eq_ok] at h
    obtain ⟨bs, -, h⟩ := h
    obtain ⟨hlen, rfl⟩ := ite_eq_ok.mp h
    exact beq_iff_eq.mp hlen
  | bytes bs =>
    obtain ⟨hlen, rfl⟩ := ite_eq_ok.mp h
    exact hlen
  | _ => cases h

theorem preimage_append_bump (seeds : List Bytes) (bump : UInt8) (id : Bytes) :
    preimage (seeds ++ [[bump]]) id = seeds.flatten ++ [bump] ++ id ++ marker := by
  rw [preimage, List.flatten_append]
  rfl

/-- The identity of a program and the bump in front of it stand at the end. -/
theorem preimage_inj {seeds seeds' : List Bytes} {bump bump' : UInt8} {id id' : Bytes}
    (hid : id.length = id'.length) :
    preimage (seeds ++ [[bump]]) id = preimage (seeds' ++ [[bump']]) id' ↔
      seeds.flatten = seeds'.flatten ∧ bump = bump' ∧ id = id' := by
  simp only [preimage_append_bump]
  constructor
  · intro h
    obtain ⟨h, hid⟩ := List.append_inj' (List.append_cancel_right h) hid
    obtain ⟨h, hbump⟩ := List.append_inj' h rfl
    exact ⟨h, List.head_eq_of_cons_eq hbump, hid⟩
  · rintro ⟨h, rfl, rfl⟩
    rw [h]

/-! ### Seeds within their limits -/

/-- The seeds leave room for a bump, and none is too long. -/
structure WithinLimits (seeds : List Bytes) : Prop where
  room : seeds.length < maxSeeds
  short : ∀ seed ∈ seeds, seed.length ≤ maxSeedLength

variable {seeds seeds' : List Bytes} {given given' : Value} {id id' : Bytes}

/-- Bytes within the limits are taken as the seeds that they are. -/
theorem WithinLimits.admits (hs : WithinLimits seeds) (hid : programOf given = .ok id)
    (scheme : Scheme) : scheme.Admits (seeds.map .bytes) given seeds id := by
  have hlist : seedList (seeds.map .bytes) = .ok seeds := by
    rcases seedList_bytes seeds with ⟨-, h⟩ | ⟨seed, hmem, hlong, -⟩
    · exact h
    · exact absurd (hs.short seed hmem) (Nat.not_le.mpr hlong)
  exact Scheme.admits_of_seedList scheme hid (by rw [List.length_map]; exact hs.room) hlist

namespace Scheme

variable {scheme : Scheme} {bump bump' : UInt8}

/-- The two inputs are no collision: they have one digest only if they are the same. -/
def Separates (scheme : Scheme) (x y : Bytes) : Prop := scheme.hash x = scheme.hash y → x = y

/-- With a bump that is given, the digest of the input is the address unless it is on the curve. -/
theorem createFor_bump (hs : WithinLimits seeds) (hid : programOf given = .ok id)
    (scheme : Scheme) (bump : UInt8) :
    scheme.createFor (.list ((seeds ++ [[bump]]).map .bytes)) given =
      scheme.create (seeds ++ [[bump]]) id := by
  rw [List.map_append]
  exact (hs.admits hid scheme).created bump

/-- The search looks at the seeds one after the other only. -/
theorem search_congr (scheme : Scheme) (h : seeds.flatten = seeds'.flatten) (bound : Nat) :
    scheme.search seeds id bound = scheme.search seeds' id bound := by
  induction bound with
  | zero => rfl
  | succ bump ih =>
    have hinput : preimage (seeds ++ [[UInt8.ofNat bump]]) id =
        preimage (seeds' ++ [[UInt8.ofNat bump]]) id := (preimage_inj rfl).mpr ⟨h, rfl, rfl⟩
    have hcandidate : scheme.candidate (seeds ++ [[UInt8.ofNat bump]]) id =
        scheme.candidate (seeds' ++ [[UInt8.ofNat bump]]) id := congrArg scheme.hash hinput
    unfold search
    rw [hcandidate, ih]

/-- What is found is the digest of the input with the bump that is found. -/
theorem found_of_findFor (hs : WithinLimits seeds) (hid : programOf given = .ok id)
    {found : Bytes × Nat} (h : scheme.findFor (.list (seeds.map .bytes)) given = .ok found) :
    found.2 < 256 ∧ scheme.hash (preimage (seeds ++ [[UInt8.ofNat found.2]]) id) = found.1 := by
  have hsearch := ((hs.admits hid scheme).found found).mp h
  obtain ⟨hlt, hcreate, -⟩ := search_eq_some.mp hsearch
  exact ⟨hlt, (create_eq_ok.mp hcreate).2⟩

/-- Something is found, or every bump is exhausted. -/
theorem findFor_cases (hs : WithinLimits seeds) (hid : programOf given = .ok id)
    (scheme : Scheme) :
    (∃ found, scheme.findFor (.list (seeds.map .bytes)) given = .ok found) ∨
      scheme.findFor (.list (seeds.map .bytes)) given = .error .noBump := by
  have hadmits := hs.admits hid scheme
  cases hsearch : scheme.search seeds id 256 with
  | some found => exact .inl ⟨found, (hadmits.found found).mpr hsearch⟩
  | none => exact .inr (hadmits.exhausted.mpr hsearch)

theorem findFor_congr (hs : WithinLimits seeds) (hs' : WithinLimits seeds')
    (hid : programOf given = .ok id) (hid' : programOf given' = .ok id) (scheme : Scheme)
    (h : seeds.flatten = seeds'.flatten) :
    scheme.findFor (.list (seeds.map .bytes)) given =
      scheme.findFor (.list (seeds'.map .bytes)) given' := by
  have hadmits' := hs'.admits hid' scheme
  rcases findFor_cases hs hid scheme with ⟨found, hfound⟩ | hnone
  · have hsearch := ((hs.admits hid scheme).found found).mp hfound
    rw [search_congr scheme h] at hsearch
    rw [hfound, (hadmits'.found found).mpr hsearch]
  · have hsearch := (hs.admits hid scheme).exhausted.mp hnone
    rw [search_congr scheme h] at hsearch
    rw [hnone, hadmits'.exhausted.mpr hsearch]

/-- Digests of inputs that are no collision tell everything apart that is digested. -/
theorem hash_inj_of_separates (hlen : id.length = id'.length)
    (h : scheme.Separates (preimage (seeds ++ [[bump]]) id) (preimage (seeds' ++ [[bump']]) id')) :
    scheme.hash (preimage (seeds ++ [[bump]]) id) = scheme.hash (preimage (seeds' ++ [[bump']]) id') ↔
      seeds.flatten = seeds'.flatten ∧ bump = bump' ∧ id = id' := by
  rw [← preimage_inj hlen]
  exact ⟨h, congrArg scheme.hash⟩

theorem ofNat_inj_of_lt {m n : Nat} (hm : m < 256) (hn : n < 256) :
    UInt8.ofNat m = UInt8.ofNat n ↔ m = n := by
  have hm : (UInt8.ofNat m).toNat = m := UInt8.toNat_ofNat_of_lt' hm
  have hn : (UInt8.ofNat n).toNat = n := UInt8.toNat_ofNat_of_lt' hn
  rw [← UInt8.toNat_inj, hm, hn]

end Scheme

/-- Two derivations digest the same just if their seeds are the same one after the other, with one bump
and one program. So seeds of the same bytes have one address, found with one bump, unless every bump is
exhausted for both; and addresses of other bytes, bumps or programs are different, unless the two inputs
that are digested for them are a collision. -/
theorem derives_from_flatten (hs : WithinLimits seeds) (hs' : WithinLimits seeds')
    (hid : programOf given = .ok id) (hid' : programOf given' = .ok id') :
    (∀ bump bump' : UInt8, preimage (seeds ++ [[bump]]) id = preimage (seeds' ++ [[bump']]) id' ↔
      seeds.flatten = seeds'.flatten ∧ bump = bump' ∧ id = id') ∧
    ∀ scheme : Scheme,
      (∀ bump : UInt8, scheme.createFor (.list ((seeds ++ [[bump]]).map .bytes)) given =
        if scheme.onCurve (scheme.hash (preimage (seeds ++ [[bump]]) id)) then .error .onCurve
        else .ok (scheme.hash (preimage (seeds ++ [[bump]]) id))) ∧
      ((∃ found, scheme.findFor (.list (seeds.map .bytes)) given = .ok found) ∨
        scheme.findFor (.list (seeds.map .bytes)) given = .error .noBump) ∧
      (seeds.flatten = seeds'.flatten → id = id' →
        scheme.findFor (.list (seeds.map .bytes)) given =
          scheme.findFor (.list (seeds'.map .bytes)) given') ∧
      (∀ bump bump' address address',
        scheme.createFor (.list ((seeds ++ [[bump]]).map .bytes)) given = .ok address →
        scheme.createFor (.list ((seeds' ++ [[bump']]).map .bytes)) given' = .ok address' →
        scheme.Separates (preimage (seeds ++ [[bump]]) id) (preimage (seeds' ++ [[bump']]) id') →
        (address = address' ↔ seeds.flatten = seeds'.flatten ∧ bump = bump' ∧ id = id')) ∧
      ∀ found found' : Bytes × Nat,
        scheme.findFor (.list (seeds.map .bytes)) given = .ok found →
        scheme.findFor (.list (seeds'.map .bytes)) given' = .ok found' →
        scheme.Separates (preimage (seeds ++ [[UInt8.ofNat found.2]]) id)
          (preimage (seeds' ++ [[UInt8.ofNat found'.2]]) id') →
        (found.1 = found'.1 ↔ seeds.flatten = seeds'.flatten ∧ found.2 = found'.2 ∧ id = id') := by
  have hlen := (length_of_programOf hid).trans (length_of_programOf hid').symm
  refine ⟨fun bump bump' => preimage_inj hlen, fun scheme => ⟨?_, ?_, ?_, ?_, ?_⟩⟩
  · exact fun bump => Scheme.createFor_bump hs hid scheme bump
  · exact Scheme.findFor_cases hs hid scheme
  · rintro h rfl
    exact Scheme.findFor_congr hs hs' hid hid' scheme h
  · intro bump bump' address address' h h' hseparates
    rw [Scheme.createFor_bump hs hid] at h
    rw [Scheme.createFor_bump hs' hid'] at h'
    obtain ⟨-, rfl⟩ := Scheme.create_eq_ok.mp h
    obtain ⟨-, rfl⟩ := Scheme.create_eq_ok.mp h'
    exact Scheme.hash_inj_of_separates hlen hseparates
  · intro found found' h h' hseparates
    obtain ⟨hlt, heq⟩ := Scheme.found_of_findFor hs hid h
    obtain ⟨hlt', heq'⟩ := Scheme.found_of_findFor hs' hid' h'
    rw [← heq, ← heq', ← Scheme.ofNat_inj_of_lt hlt hlt']
    exact Scheme.hash_inj_of_separates hlen hseparates

/-- A byte moves from one seed to the next and an empty seed comes in between: nothing changes for the
ledger. Another byte is another address, where the digest of an input is the input itself. -/
theorem derives_from_flatten_moved :
    let program := Value.bytes (List.replicate 32 0)
    let bare : Scheme := ⟨fun x => x, fun _ => false⟩
    (WithinLimits [[1, 2], [3]] ∧ WithinLimits [[1], [], [2, 3]] ∧ WithinLimits [[1, 2], [4]]) ∧
    ledger.findFor (.list [.bytes [1, 2], .bytes [3]]) program =
      ledger.findFor (.list [.bytes [1], .bytes [], .bytes [2, 3]]) program ∧
    ∃ address address',
      bare.createFor (.list [.bytes [1, 2], .bytes [3], .bytes [7]]) program = .ok address ∧
      bare.createFor (.list [.bytes [1, 2], .bytes [4], .bytes [7]]) program = .ok address' ∧
      address ≠ address' := by
  intro program bare
  have hid : programOf program = .ok (List.replicate 32 0) := rfl
  have hs : WithinLimits [[1, 2], [3]] := ⟨by decide, by decide⟩
  have hmoved : WithinLimits [[1], [], [2, 3]] := ⟨by decide, by decide⟩
  have hother : WithinLimits [[1, 2], [4]] := ⟨by decide, by decide⟩
  obtain ⟨-, hmove⟩ := derives_from_flatten hs hmoved hid hid
  obtain ⟨-, -, hfound, -⟩ := hmove ledger
  obtain ⟨-, hchange⟩ := derives_from_flatten hs hother hid hid
  obtain ⟨-, -, -, hcreated, -⟩ := hchange bare
  have hne := hcreated 7 7 _ _ rfl rfl fun h => h
  refine ⟨⟨hs, hmoved, hother⟩, hfound rfl rfl, _, _, rfl, rfl, fun h => ?_⟩
  exact absurd (hne.mp h).1 (by decide)

end Address

end LedgerWire
