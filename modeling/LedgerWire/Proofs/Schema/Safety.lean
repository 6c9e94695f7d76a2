import LedgerWire.Proofs.Schema.Locality
import LedgerWire.Proofs.Schema.Steps

/-!
# Schemas that were built are safe

A schema is safe if its values are written or do not fit, and bytes are read or malformed; anything
else is a fault of the schema. `Schema.meetsFloat` tells the schemas that are not safe: a value can be
met in them that is an integer of a width that was given as a floating-point number.
-/

namespace LedgerWire

/-- The fault is about what was offered; otherwise the fewest bytes of a part cannot be told. -/
def SchemaFault.isInvalid : SchemaFault → Bool
  | .size _ => false
  | _ => true

namespace Schema

open Reader

mutual

/-- An integer of a floating-point width can be met in a value. -/
def meetsFloat : Schema → Bool
  | .floatInteger _ _ => true
  | .option inner => meetsFloat inner
  | .vec inner => meetsFloat inner
  | .array inner length => length != 0 && meetsFloat inner
  | .record fields => meetsFloatIn fields
  | .union variants => meetsFloatIn variants
  | _ => false

def meetsFloatIn : List (Text × Schema) → Bool
  | [] => false
  | (_, s) :: fields => meetsFloat s || meetsFloatIn fields

end

variable {s inner : Schema} {fields variants : List (Text × Schema)} {v : Value}

@[simp] theorem meetsFloatIn_eq (fields : List (Text × Schema)) :
    meetsFloatIn fields = fields.any fun f => f.2.meetsFloat := by
  induction fields with
  | nil => rfl
  | cons f fields ih => simp [meetsFloatIn, ih]

theorem meetsFloatIn_eq_false :
    meetsFloatIn fields = false ↔ ∀ f ∈ fields, f.2.meetsFloat = false := by
  simp

theorem meetsFloat_of_exact (he : s.all isExact) : s.meetsFloat = false := by
  induction s with
  | floatInteger w signed => cases he
  | option inner ih => exact ih (all_option he)
  | vec inner ih => exact ih (all_vec he)
  | array inner length ih => simp [meetsFloat, ih (all_array he)]
  | record fields ih => exact meetsFloatIn_eq_false.mpr fun f hf => ih f hf (all_record he f hf)
  | union variants ih => exact meetsFloatIn_eq_false.mpr fun f hf => ih f hf (all_union he f hf)
  | _ => rfl

/-! ### What is written, or does not fit -/

theorem Enters.meetsFloat {t : Schema} {w : Value} {segment : Option Segment}
    (h : Enters s v segment t w) (hf : s.meetsFloat = false) : t.meetsFloat = false := by
  cases h with
  | option => exact hf
  | vec => exact hf
  | @array _ length before after _ own =>
    have hl : (before ++ w :: after).length = length := by
      by_contra hl
      cases (if_neg hl).symm.trans own
    have h0 : length ≠ 0 := by
      rw [← hl]
      simp
    simpa [Schema.meetsFloat, h0] using hf
  | record => exact meetsFloatIn_eq_false.mp hf _ (by simp)
  | union variant => exact meetsFloatIn_eq_false.mp hf _ variant

theorem Reaches.meetsFloat {t : Schema} {w : Value} {path : List Segment}
    (h : Reaches s v path t w) (hf : s.meetsFloat = false) : t.meetsFloat = false := by
  induction h with
  | here => exact hf
  | step enters _ ih => exact ih (enters.meetsFloat hf)

/-- A value that is no integer of a floating-point width, and has none in it, is written or does not
fit. -/
theorem encode_error (hs : s.all isSound) (hf : s.meetsFloat = false) :
    encode s v ≠ .error .floatWidth := by
  intro h
  obtain ⟨path, t, w, e, hr, hc, he⟩ := exists_reaches hs h
  obtain ⟨reason, rfl⟩ | ⟨-, width, signed, rfl⟩ := ownCheck_error hc
  · rw [EncodeError.along_mismatch] at he
    cases he
  · cases hr.meetsFloat hf

/-! ### What is read, or malformed -/

/-- If there is an error, it is one of malformed input. -/
def Guarded {α : Type} (r : Except DecodeError α) : Prop :=
  ∀ x, r = .error x → x.category ∈ [.truncated, .discriminant, .encoding]

namespace Guarded

variable {α β : Type} {r : Except DecodeError α}

theorem ok (a : α) : Guarded (.ok a) := nofun

theorem error {x : DecodeError} (h : x.category ∈ [.truncated, .discriminant, .encoding]) :
    Guarded (.error x : Except DecodeError α) := by
  intro y hy
  cases hy
  exact h

theorem bind {g : α → Except DecodeError β} (h : Guarded r) (hg : ∀ a, r = .ok a → Guarded (g a)) :
    Guarded (r >>= g) := by
  intro x hx
  rcases bind_eq_error.mp hx with hx | ⟨a, ha, hx⟩
  · exact h x hx
  · exact hg a ha x hx

theorem map {g : α → β} (h : Guarded r) : Guarded (r.map g) :=
  fun x hx => h x (map_eq_error.mp hx)

theorem take (c : Cursor) (size : Nat) : Guarded (c.take size) := by
  unfold Cursor.take
  dsimp only
  split
  · exact ok _
  · exact error (by simp [DecodeError.category])

theorem next (c : Cursor) : Guarded c.next := by
  unfold Cursor.next
  split
  · exact ok _
  · exact error (by simp [DecodeError.category])

theorem length (c : Cursor) : Guarded c.length := (take c lengthSize).bind fun _ _ => ok _

end Guarded

theorem guarded_items {f : Reader Value} (hf : ∀ c, Guarded (f c)) (count : Nat) (c : Cursor) :
    Guarded (readItems f count c) := by
  induction count generalizing c with
  | zero => exact .ok _
  | succ count ih => exact (hf c).bind fun _ _ => (ih _).bind fun _ _ => .ok _

theorem guarded_fields (hf : ∀ f ∈ fields, ∀ c, Guarded (read f.2 c)) (c : Cursor) :
    Guarded (readFields fields c) := by
  induction fields generalizing c with
  | nil => exact .ok _
  | cons f fields ih =>
    exact (hf f List.mem_cons_self c).bind fun _ _ =>
      (ih (fun g hg => hf g (List.mem_cons_of_mem f hg)) _).bind fun _ _ => .ok _

theorem guarded_read (hs : s.all isSound) (hf : s.meetsFloat = false) (c : Cursor) :
    Guarded (read s c) := by
  induction s generalizing c with
  | integer w signed => exact (Guarded.take c w.bytes).bind fun _ _ => .ok _
  | floatInteger w signed => cases hf
  | bool =>
    refine (Guarded.next c).bind fun _ _ => ?_
    dsimp only
    split
    · exact .ok _
    · exact .error (by simp [DecodeError.category])
  | text =>
    refine (Guarded.length c).bind fun _ _ => (Guarded.take _ _).bind fun _ _ => ?_
    dsimp only
    split
    · exact .ok _
    · exact .error (by simp [DecodeError.category])
  | bytes => exact (Guarded.length c).bind fun _ _ => (Guarded.take _ _).bind fun _ _ => .ok _
  | fixedBytes length => exact (Guarded.take c length).bind fun _ _ => .ok _
  | option inner ih =>
    refine (Guarded.next c).bind fun _ _ => ?_
    dsimp only
    split
    · exact .ok _
    · split
      · exact ih (all_option hs) hf _
      · exact .error (by simp [DecodeError.category])
  | vec inner ih =>
    refine (Guarded.length c).bind fun x hc => ?_
    obtain ⟨count, c₁⟩ := x
    -- A number of items that was read has a floating-point number near to it.
    have hcount : count < 2 ^ 32 := Nat.lt_of_le_of_lt (Cursor.length_eq_ok.mp hc).1 (by decide)
    obtain ⟨size, hsize, -⟩ := minSize_of_sized (all_self (p := isSound) hs)
    obtain ⟨least, hmul⟩ := Quantity.count_mul hcount size
    have hleast : inner.minSize.bind (Quantity.int count).mul = .ok least := by
      rw [hsize]
      exact hmul
    show Guarded ((inner.minSize.bind (Quantity.int count).mul).mapError DecodeError.size >>= _)
    rw [hleast]
    show Guarded (if (Quantity.int c₁.rest.length).less least then _ else _)
    split
    · exact .error (by simp [DecodeError.category])
    · exact (guarded_items (ih (all_vec hs) hf) count c₁).bind fun _ _ => .ok _
  | array inner length ih =>
    by_cases h0 : length = 0
    · subst h0
      exact Guarded.bind (.ok _) fun _ _ => .ok _
    · have hf : inner.meetsFloat = false := by simpa [meetsFloat, h0] using hf
      exact (guarded_items (ih (all_array hs) hf) length c).bind fun _ _ => .ok _
  | record fields ih =>
    have hall := meetsFloatIn_eq_false.mp hf
    exact (guarded_fields (fun f hmem => ih f hmem (all_record hs f hmem) (hall f hmem)) c).bind
      fun _ _ => .ok _
  | union variants ih =>
    refine (Guarded.next c).bind fun x _ => ?_
    obtain ⟨tag, c₁⟩ := x
    dsimp only
    rw [readVariant_eq]
    cases hv : variants[tag.toNat]? with
    | none => exact .error (by simp [DecodeError.category])
    | some variant =>
      have hmem := List.mem_of_getElem? hv
      exact (ih variant hmem (all_union hs _ hmem) (meetsFloatIn_eq_false.mp hf _ hmem) c₁).map

/-! ### Integers of floating-point widths -/

theorem shortestOf_of_forall (h : ∀ f ∈ fields, ∃ m, shortest? f.2 = some m) :
    ∃ m, shortestOf fields = some m := by
  induction fields with
  | nil => exact ⟨0, rfl⟩
  | cons f fields ih =>
    obtain ⟨a, ha⟩ := h f List.mem_cons_self
    obtain ⟨b, hb⟩ := ih fun g hg => h g (List.mem_cons_of_mem f hg)
    exact ⟨a + b, shortestOf_cons.mpr ⟨a, b, ha, hb, rfl⟩⟩

/-- Where none can be met, there are values. -/
theorem shortest_of_meetsFloat (hs : s.all isSound) (hf : s.meetsFloat = false) :
    ∃ m, shortest? s = some m := by
  induction s with
  | floatInteger w signed => cases hf
  | array inner length ih =>
    by_cases h0 : length = 0
    · exact ⟨0, by simp [shortest?, h0]⟩
    · obtain ⟨m, hm⟩ := ih (all_array hs) (by simpa [meetsFloat, h0] using hf)
      exact ⟨length * m, by simp [shortest?, h0, hm]⟩
  | record fields ih =>
    exact shortestOf_of_forall fun f hmem =>
      ih f hmem (all_record hs f hmem) (meetsFloatIn_eq_false.mp hf f hmem)
  | union variants ih =>
    obtain ⟨f, variants, rfl⟩ := List.exists_cons_of_ne_nil (ne_nil_of_union hs)
    have hmem : f ∈ f :: variants := List.mem_cons_self
    obtain ⟨m, hm⟩ := ih f hmem (all_union hs f hmem) (meetsFloatIn_eq_false.mp hf f hmem)
    obtain ⟨n, hn, -⟩ := leastOf_le hmem hm
    exact ⟨1 + n, by simp [shortest?, hn]⟩
  | _ => exact ⟨_, rfl⟩

theorem encode_none_error : encode s .none ≠ .error .floatWidth := by
  intro h
  cases s <;> cases h

/-- The fault of a part is that of the value. -/
theorem encode_fault {t : Schema} {w : Value} {segment : Option Segment} (hs : s.all isSound)
    (h : Enters s v segment t w) (hw : encode t w = .error .floatWidth) :
    encode s v = .error .floatWidth :=
  (encode_eq_error hs).mpr
    (.inr ⟨segment, t, w, _, h, hw, EncodeError.along_floatWidth segment.toList⟩)

/-- A record is at fault for its first field that is; the fields before it are written. -/
theorem encode_record_fault (hs : (record fields).all isSound)
    (hf : (record fields).meetsFloat) (ih : ∀ f ∈ fields, f.2.meetsFloat →
      ∃ v, encode f.2 v = .error .floatWidth) :
    ∃ v, encode (.record fields) v = .error .floatWidth := by
  have hany : fields.any fun f => f.2.meetsFloat := by rw [← meetsFloatIn_eq]; exact hf
  obtain ⟨f, hfind⟩ := Option.isSome_iff_exists.mp (List.find?_isSome.mpr (List.any_eq_true.mp hany))
  obtain ⟨hmeets, before, later, rfl, hbefore⟩ := List.find?_eq_some_iff_append.mp hfind
  have hn := nodup_of_record hs
  have hall := all_record hs
  obtain ⟨v, hv⟩ := ih f (by simp) hmeets
  obtain ⟨m, hm⟩ : ∃ m, shortestOf before = some m := shortestOf_of_forall fun g hg =>
    shortest_of_meetsFloat (hall g (by simp [hg])) (by simpa using hbefore g hg)
  obtain ⟨rows, rfl, hrows, -⟩ := exists_lightest_rows
    (fun g hg _ => exists_lightest (hall g (by simp [hg]))) hm
  let entries : Entries := rows.map Row.entry ++ (.text f.1, v) :: later.map fun g => (.text g.1, .none)
  have hkeys : entries.map (·.1) =
      (rows.map Row.field ++ f :: later).map fun g => Value.text g.1 := by
    simp only [entries, List.map_append, List.map_cons, map_fst_entry]
    simp only [List.map_map, Function.comp_def]
  have hnodup : (entries.map (·.1)).Nodup := by
    rw [hkeys]
    exact keys_nodup hn
  have value : entries.field? f.1 = some v :=
    Entries.field?_of_mem hnodup (List.mem_append_right _ List.mem_cons_self)
  refine ⟨.map entries, encode_fault hs
    (.record ((checkFields_eq_ok hn).mpr (.of_eq hkeys)) value fun g hg => ?_) hv⟩
  obtain ⟨row, hrow, rfl⟩ := List.mem_map.mp hg
  refine ⟨row.value, ?_, row.bytes, hrows row hrow⟩
  refine Entries.field?_of_mem hnodup (List.mem_append_left _ ?_)
  exact List.mem_map_of_mem (f := Row.entry) hrow

theorem exists_fault (hs : s.all isSound) (hf : s.meetsFloat) :
    ∃ v, encode s v = .error .floatWidth := by
  induction s with
  | floatInteger w signed => exact ⟨.int 1, by cases signed <;> rfl⟩
  | option inner ih =>
    obtain ⟨v, h⟩ := ih (all_option hs) hf
    have hv : v ≠ .none := by
      rintro rfl
      exact encode_none_error h
    exact ⟨v, encode_fault hs (.option hv) h⟩
  | vec inner ih =>
    obtain ⟨v, h⟩ := ih (all_vec hs) hf
    have hlength : encodeLength [v].length = .ok (Bytes.ofNatLE lengthSize 1) :=
      encodeLength_eq_ok.mpr ⟨(by decide : 1 ≤ maxLength), rfl⟩
    have own : ownCheck (.vec inner) (.list [v]) = .ok () := by
      rw [ownCheck, hlength]
      rfl
    exact ⟨.list [v], encode_fault hs (@Enters.vec inner [] [] v own (List.forall_mem_nil _)) h⟩
  | array inner length ih =>
    obtain ⟨h0, hinner⟩ : length ≠ 0 ∧ inner.meetsFloat := by simpa [meetsFloat] using hf
    obtain ⟨v, h⟩ := ih (all_array hs) hinner
    obtain ⟨n, rfl⟩ := Nat.exists_eq_succ_of_ne_zero h0
    have own : ownCheck (.array inner (n + 1)) (.list (v :: .replicate n v)) = .ok () :=
      if_pos (by simp)
    exact ⟨.list (v :: .replicate n v), encode_fault hs
      (@Enters.array inner (n + 1) [] (.replicate n v) v own (List.forall_mem_nil _)) h⟩
  | record fields ih =>
    exact encode_record_fault hs hf fun f hmem => ih f hmem (all_record hs f hmem)
  | union variants ih =>
    have hany : variants.any fun f => f.2.meetsFloat := by rw [← meetsFloatIn_eq]; exact hf
    obtain ⟨f, hmem, hmeets⟩ := List.any_eq_true.mp hany
    obtain ⟨payload, h⟩ := ih f hmem (all_union hs f hmem) hmeets
    exact ⟨.map [(.text f.1, payload)], encode_fault hs (.union hmem) h⟩
  | _ => cases hf

/-! ### Safe schemas -/

/-- Every value is written or does not fit, and all bytes are read or malformed. -/
structure Safe (s : Schema) : Prop where
  encode : ∀ v, (∃ bs, s.encode v = .ok bs) ∨ ∃ path misfit, s.encode v = .error (.mismatch path misfit)
  decode : ∀ data, (∃ v n, s.decode data = .ok (v, n)) ∨
    ∃ x, s.decode data = .error x ∧ x.category ∈ [.truncated, .discriminant, .encoding]

theorem safe_iff (hs : s.all isSound) : Safe s ↔ s.meetsFloat = false := by
  constructor
  · intro h
    by_contra hf
    obtain ⟨v, hv⟩ := exists_fault hs (by simpa using hf)
    rcases h.encode v with ⟨bs, h⟩ | ⟨path, misfit, h⟩
    · cases hv.symm.trans h
    · cases hv.symm.trans h
  · intro hf
    refine ⟨fun v => ?_, fun data => ?_⟩
    · cases hv : Schema.encode s v with
      | ok bs => exact .inl ⟨bs, rfl⟩
      | error x =>
        cases x with
        | mismatch path misfit => exact .inr ⟨path, misfit, rfl⟩
        | floatWidth => exact absurd hv (encode_error hs hf)
    · have hg : Guarded (s.decode data) := (guarded_read hs hf ⟨0, data.drop 0⟩).map
      cases hd : s.decode data with
      | ok x => exact .inl ⟨x.1, x.2, rfl⟩
      | error x => exact .inr ⟨x, rfl, hg x hd⟩

end Schema

namespace Blueprint

open Schema

variable {b : Blueprint} {s : Schema}

/-- The calls are refused for what they are given, or build a schema that is safe. -/
def IsValidated (b : Blueprint) : Prop :=
  (∃ fault, b.build = .error fault ∧ fault.isInvalid) ∨ ∃ s, b.build = .ok s ∧ Safe s

theorem isValidated_iff : b.IsValidated ↔
    (∀ fault, b.build ≠ .error (.size fault)) ∧ ∀ s, b.build = .ok s → s.meetsFloat = false := by
  unfold IsValidated
  cases hb : b.build with
  | ok s =>
    have hs := sound_of_build hb
    simp [safe_iff hs]
  | error fault =>
    cases fault with
    | size fault => simpa [SchemaFault.isInvalid] using ⟨fault⟩
    | _ => simp [SchemaFault.isInvalid]

/-! ### Sizes that can be told -/

theorem childOf_error {c : Candidate} {owner : Owner} {fault : SchemaFault}
    (h : c.childOf owner = .error fault) : fault.isInvalid := by
  cases c <;> cases h
  rfl

theorem lengthOf_error {owner : Owner} {given : Value} {fault : SchemaFault}
    (h : lengthOf owner given = .error fault) : fault.isInvalid := by
  unfold lengthOf at h
  split at h <;> cases h
  rfl

theorem namedChildren_error {owner : Owner} {taken : List Text} {parts : List (Value × Candidate)}
    {fault : SchemaFault} (h : namedChildren owner taken parts = .error fault) : fault.isInvalid := by
  induction parts generalizing taken with
  | nil => cases h
  | cons part parts ih =>
    obtain ⟨given, child⟩ := part
    unfold namedChildren at h
    cases given with
    | text name =>
      dsimp only at h
      rcases guard_eq_error.mp h with ⟨-, rfl⟩ | ⟨-, h⟩
      · rfl
      rcases guard_eq_error.mp h with ⟨-, rfl⟩ | ⟨-, h⟩
      · rfl
      rcases bind_eq_error.mp h with h | ⟨s, -, h⟩
      · exact childOf_error h
      · rcases bind_eq_error.mp h with h | ⟨children, -, h⟩
        · exact ih h
        · cases h
    | _ => cases h; rfl

theorem buildUnion_error {parts : List (Value × Candidate)} {fault : SchemaFault}
    (h : buildUnion parts = .error fault) : fault.isInvalid := by
  rcases bind_eq_error.mp h with h | ⟨children, -, h⟩
  · exact namedChildren_error h
  rcases guard_eq_error.mp h with ⟨-, rfl⟩ | ⟨-, h⟩
  · rfl
  rcases guard_eq_error.mp h with ⟨-, rfl⟩ | ⟨-, h⟩
  · rfl
  cases h

/-- A part whose fewest bytes can be told is refused for what it is. -/
theorem elementOf_error {c : Candidate} {owner : Owner} {fault : SchemaFault}
    (hc : ∀ s, c = .schema s → ∃ size, s.minSize = .ok size) (h : c.elementOf owner = .error fault) :
    fault.isInvalid := by
  rcases bind_eq_error.mp h with h | ⟨s, hs, h⟩
  · exact childOf_error h
  · obtain ⟨size, hsize⟩ := hc s (childOf_eq_ok.mp hs)
    rw [hsize] at h
    rcases bind_eq_error.mp h with h | ⟨size', -, h⟩
    · cases h
    · split at h <;> cases h
      rfl

theorem minSize_of_offer (hw : b.wholeWidths) (h : b.offer = .ok (.schema s)) :
    ∃ size, s.minSize = .ok size := by
  obtain ⟨m, hm, -⟩ := minSize_of_exact (sound_of_offer h) (exact_of_offer hw h)
  exact ⟨_, hm⟩

theorem buildInteger_error {bits signed : Value} {fault : SchemaFault}
    (h : buildInteger bits signed = .error fault) : fault.isInvalid := by
  cases bits with
  | int n =>
    rcases bind_eq_error.mp h with h | ⟨build, -, h⟩
    · cases hw : Width.ofBits? n <;> rw [hw] at h <;> cases h
      rfl
    · cases signed <;> cases h <;> rfl
  | float x =>
    rcases bind_eq_error.mp h with h | ⟨build, -, h⟩
    · cases hw : x.toInt?.bind Width.ofBits? <;> rw [hw] at h <;> cases h
      rfl
    · cases signed <;> cases h <;> rfl
  | _ =>
    cases h
    rfl

theorem offerEach_error {parts : List (Value × Blueprint)} {fault : SchemaFault}
    (h : offerEach parts = .error fault) : ∃ part ∈ parts, part.2.offer = .error fault := by
  induction parts with
  | nil => cases h
  | cons part parts ih =>
    rcases bind_eq_error.mp h with h | ⟨c, -, h⟩
    · exact ⟨part, List.mem_cons_self, h⟩
    · rcases bind_eq_error.mp h with h | ⟨cs, -, h⟩
      · obtain ⟨part', hmem, h⟩ := ih h
        exact ⟨part', List.mem_cons_of_mem part hmem, h⟩
      · cases h

/-- Where no width is given as a floating-point number, all refusals are about what was offered. -/
theorem offer_error (hw : b.wholeWidths) {fault : SchemaFault} (h : b.offer = .error fault) :
    fault.isInvalid := by
  induction b with
  | value v => cases h
  | integer bits signed => exact buildInteger_error (map_eq_error.mp h)
  | bool => cases h
  | text => cases h
  | bytes => cases h
  | fixedBytes length => exact lengthOf_error (map_eq_error.mp (map_eq_error.mp h))
  | option inner ih =>
    rcases bind_eq_error.mp h with h | ⟨c, -, h⟩
    · exact ih hw h
    · exact childOf_error (map_eq_error.mp (map_eq_error.mp h))
  | vec inner ih =>
    rcases bind_eq_error.mp h with h | ⟨c, hc, h⟩
    · exact ih hw h
    · refine elementOf_error (fun s hs => ?_) (map_eq_error.mp (map_eq_error.mp h))
      subst hs
      exact minSize_of_offer (b := inner) hw hc
  | array inner length ih =>
    rcases bind_eq_error.mp h with h | ⟨c, hc, h⟩
    · exact ih hw h
    · rcases bind_eq_error.mp (map_eq_error.mp h) with h | ⟨s, -, h⟩
      · refine elementOf_error (fun s hs => ?_) h
        subst hs
        exact minSize_of_offer (b := inner) hw hc
      · rcases bind_eq_error.mp h with h | ⟨n, -, h⟩
        · exact lengthOf_error h
        · cases h
  | record parts ih =>
    rw [wholeWidths, wholeWidthsEach_eq, List.all_eq_true] at hw
    rcases bind_eq_error.mp h with h | ⟨cs, -, h⟩
    · obtain ⟨part, hmem, h⟩ := offerEach_error h
      exact ih part hmem (hw part hmem) h
    · exact namedChildren_error (map_eq_error.mp (map_eq_error.mp h))
  | union parts ih =>
    rw [wholeWidths, wholeWidthsEach_eq, List.all_eq_true] at hw
    rcases bind_eq_error.mp h with h | ⟨cs, -, h⟩
    · obtain ⟨part, hmem, h⟩ := offerEach_error h
      exact ih part hmem (hw part hmem) h
    · exact buildUnion_error (map_eq_error.mp h)

theorem build_error (hw : b.wholeWidths) {fault : SchemaFault} (h : b.build = .error fault) :
    fault.isInvalid := by
  rcases bind_eq_error.mp h with h | ⟨c, -, h⟩
  · exact offer_error hw h
  · cases c <;> cases h
    rfl

/-- Of the trees of calls that build a schema, those are validated that can tell the size of the items
of their lists and build no schema in which an integer of a floating-point width is met. -/
theorem isValidated_iff_no_float (b : Blueprint) :
    (b.IsValidated ↔
      (∀ fault, b.build ≠ .error (.size fault)) ∧ ∀ s, b.build = .ok s → s.meetsFloat = false) ∧
    (b.wholeWidths → b.IsValidated) := by
  refine ⟨isValidated_iff, fun hw => isValidated_iff.mpr ⟨fun fault h => ?_, fun s h => ?_⟩⟩
  · have := build_error hw h
    cases this
  · exact meetsFloat_of_exact (exact_of_build hw h)

theorem build_floatInteger :
    (integer (.float (.ofNat 8)) (.bool true)).build = .ok (.floatInteger .w8 true) := by
  have hwidth : (Binary64.ofNat 8).toInt? = some 8 := by decide +kernel
  refine build_eq_ok.mpr (offer_integer.mpr (buildInteger_eq_ok.mpr ⟨.w8, true, rfl, .inr ?_⟩))
  exact ⟨_, rfl, by rw [hwidth]; rfl, rfl⟩

/-- Integers of 8.0 bits are built, and none is written. -/
theorem floatInteger_not_validated :
    (integer (.float (.ofNat 8)) (.bool true)).build = .ok (.floatInteger .w8 true) ∧
      Schema.encode (.floatInteger .w8 true) (.int 1) = .error .floatWidth ∧
      ¬ (integer (.float (.ofNat 8)) (.bool true)).IsValidated := by
  refine ⟨build_floatInteger, rfl, fun h => ?_⟩
  have hf := (isValidated_iff.mp h).2 _ build_floatInteger
  cases hf

end Blueprint

end LedgerWire
