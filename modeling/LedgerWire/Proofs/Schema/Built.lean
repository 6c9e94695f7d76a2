import LedgerWire.Proofs.Result
import LedgerWire.Proofs.Schema.Structure
import LedgerWire.Schema.Blueprint
import Mathlib.Data.List.Forall2

/-!
# What is built

Every node of a schema that was built passes `Schema.isSound`: the checks of the functions that build
nodes are all there is to it. Where no width is given as a floating-point number, every node also
passes `Schema.isExact`.
-/

namespace LedgerWire

namespace Blueprint

@[induction_eliminator]
theorem induction {motive : Blueprint → Prop}
    (value : ∀ v, motive (.value v)) (integer : ∀ bits signed, motive (.integer bits signed))
    (bool : motive .bool) (text : motive .text) (bytes : motive .bytes)
    (fixedBytes : ∀ length, motive (.fixedBytes length))
    (option : ∀ inner, motive inner → motive (.option inner))
    (vec : ∀ inner, motive inner → motive (.vec inner))
    (array : ∀ inner length, motive inner → motive (.array inner length))
    (record : ∀ fields, (∀ f ∈ fields, motive f.2) → motive (.record fields))
    (union : ∀ variants, (∀ f ∈ variants, motive f.2) → motive (.union variants))
    (b : Blueprint) : motive b :=
  Blueprint.rec (motive_1 := motive) (motive_2 := fun fields => ∀ f ∈ fields, motive f.2)
    (motive_3 := fun f => motive f.2)
    value integer bool text bytes fixedBytes option vec array record union
    (fun _ h => absurd h List.not_mem_nil)
    (fun _ _ head tail f hf => (List.mem_cons.mp hf).elim (fun h => h ▸ head) (tail f))
    (fun _ _ ih => ih) b

theorem offerEach_eq_ok {parts : List (Value × Blueprint)} {cs : List (Value × Candidate)} :
    offerEach parts = .ok cs ↔
      List.Forall₂ (fun part c => part.1 = c.1 ∧ part.2.offer = .ok c.2) parts cs := by
  induction parts generalizing cs with
  | nil =>
    show (.ok [] : Except SchemaFault (List (Value × Candidate))) = .ok cs ↔ _
    simp [eq_comm]
  | cons part parts ih =>
    obtain ⟨name, b⟩ := part
    show (b.offer >>= fun c => offerEach parts >>= fun cs => pure ((name, c) :: cs)) = _ ↔ _
    simp only [bind_eq_ok, ih, pure_def, Except.ok.injEq]
    constructor
    · rintro ⟨c, h, cs, hs, rfl⟩
      exact .cons ⟨rfl, h⟩ hs
    · rintro (_ | ⟨⟨rfl, h⟩, hs⟩)
      exact ⟨_, h, _, hs, rfl⟩

end Blueprint

namespace Schema

open Blueprint

variable {s : Schema} {c : Candidate} {owner : Owner}

@[simp] theorem childOf_eq_ok : c.childOf owner = .ok s ↔ c = .schema s := by
  cases c <;> simp [Candidate.childOf]

@[simp] theorem elementOf_eq_ok : c.elementOf owner = .ok s ↔ c = .schema s ∧ s.isSized := by
  simp only [Candidate.elementOf, bind_eq_ok, childOf_eq_ok, mapError_eq_ok, isSized]
  constructor
  · rintro ⟨t, rfl, size, hsize, h⟩
    obtain ⟨h0, ⟨⟩⟩ := guard_eq_ok.mp h
    exact ⟨rfl, by simpa [hsize] using h0⟩
  · rintro ⟨rfl, h⟩
    cases hsize : s.minSize with
    | error fault => simp [hsize] at h
    | ok size =>
      have h0 : size.isZero = false := by simpa [hsize] using h
      exact ⟨s, rfl, size, hsize, by simp [h0]⟩

/-- Names are texts, not empty and each there once; nothing else is asked. -/
theorem namedChildren_eq_ok {taken : List Text} {parts : List (Value × Candidate)}
    {children : List (Text × Schema)} :
    namedChildren owner taken parts = .ok children ↔
      parts = children.map (fun f => (.text f.1, .schema f.2)) ∧
      (∀ f ∈ children, f.1.isEmpty = false ∧ f.1 ∉ taken) ∧ (children.map (·.1)).Nodup := by
  induction parts generalizing taken children with
  | nil =>
    simp only [namedChildren, Except.ok.injEq, List.nil_eq, List.map_eq_nil_iff]
    constructor
    · rintro rfl
      simp
    · rintro ⟨rfl, -⟩
      rfl
  | cons part parts ih =>
    obtain ⟨given, child⟩ := part
    constructor
    · intro h
      unfold namedChildren at h
      cases given with
      | text name =>
        dsimp only at h
        obtain ⟨he, h⟩ := guard_eq_ok.mp h
        obtain ⟨ht, h⟩ := guard_eq_ok.mp h
        simp only [bind_eq_ok, childOf_eq_ok, ih, pure_def, Except.ok.injEq] at h
        obtain ⟨s, rfl, children, ⟨rfl, hall, hn⟩, rfl⟩ := h
        refine ⟨rfl, List.forall_mem_cons.mpr ⟨⟨by simpa using he, by simpa using ht⟩,
          fun f hf => ?_⟩, ?_⟩
        · obtain ⟨h₁, h₂⟩ := hall f hf
          exact ⟨h₁, fun h => h₂ (List.mem_cons_of_mem _ h)⟩
        · rw [List.map_cons, List.nodup_cons]
          refine ⟨fun hmem => ?_, hn⟩
          obtain ⟨f, hf, rfl⟩ := List.mem_map.mp hmem
          exact (hall f hf).2 List.mem_cons_self
      | _ => cases h
    · rintro ⟨hp, hall, hn⟩
      obtain ⟨⟨name, s⟩, children, rfl, hf, hparts⟩ := List.map_eq_cons_iff.mp hp.symm
      cases hf
      obtain ⟨⟨he, ht⟩, hall⟩ := List.forall_mem_cons.mp hall
      obtain ⟨hnot, hn⟩ := List.nodup_cons.mp hn
      have hrest : namedChildren owner (name :: taken) parts = .ok children := by
        refine ih.mpr ⟨hparts.symm, fun f hf => ⟨(hall f hf).1, fun hmem => ?_⟩, hn⟩
        rcases List.mem_cons.mp hmem with h | h
        · exact hnot (h ▸ List.mem_map_of_mem (f := (·.1)) hf)
        · exact (hall f hf).2 h
      unfold namedChildren
      dsimp only
      refine guard_eq_ok.mpr ⟨by simp [he], guard_eq_ok.mpr ⟨by simpa using ht, ?_⟩⟩
      simp only [bind_eq_ok, childOf_eq_ok, pure_def, Except.ok.injEq]
      exact ⟨s, rfl, children, hrest, rfl⟩

/-! ### The functions that build nodes -/

theorem buildRecord_eq_ok {parts : List (Value × Candidate)} :
    buildRecord parts = .ok s ↔ ∃ fields, s = .record fields ∧ namesSound fields ∧
      parts = fields.map (fun f => (.text f.1, .schema f.2)) := by
  simp only [buildRecord, map_eq_ok, namedChildren_eq_ok, List.not_mem_nil, not_false_eq_true,
    and_true, namesSound, Bool.and_eq_true, List.all_eq_true, Bool.not_eq_true', decide_eq_true_eq]
  constructor
  · rintro ⟨fields, ⟨hp, he, hn⟩, rfl⟩
    exact ⟨fields, rfl, ⟨he, hn⟩, hp⟩
  · rintro ⟨fields, rfl, ⟨he, hn⟩, hp⟩
    exact ⟨fields, ⟨hp, he, hn⟩, rfl⟩

theorem buildUnion_eq_ok {parts : List (Value × Candidate)} :
    buildUnion parts = .ok s ↔ ∃ variants, s = .union variants ∧ (union variants).isSound ∧
      parts = variants.map (fun f => (.text f.1, .schema f.2)) := by
  simp only [buildUnion, bind_eq_ok, namedChildren_eq_ok, List.not_mem_nil, not_false_eq_true,
    and_true, isSound, namesSound, Bool.and_eq_true, List.all_eq_true, Bool.not_eq_true',
    decide_eq_true_eq]
  constructor
  · rintro ⟨variants, ⟨hp, he, hn⟩, h⟩
    obtain ⟨h0, h⟩ := guard_eq_ok.mp h
    obtain ⟨h1, ⟨⟩⟩ := guard_eq_ok.mp h
    exact ⟨variants, rfl, ⟨⟨⟨he, hn⟩, by simpa using h0⟩, Nat.le_of_not_lt h1⟩, hp⟩
  · rintro ⟨variants, rfl, ⟨⟨⟨he, hn⟩, h0⟩, h1⟩, hp⟩
    exact ⟨variants, ⟨hp, he, hn⟩,
      guard_eq_ok.mpr ⟨by simp [h0], guard_eq_ok.mpr ⟨Nat.not_lt.mpr h1, rfl⟩⟩⟩

@[simp] theorem lengthOf_eq_ok {given : Value} {n : Nat} :
    lengthOf owner given = .ok n ↔ given = .int n := by
  unfold lengthOf
  split
  · next m =>
    simp only [Except.ok.injEq, Value.int.injEq]
    exact Int.ofNat_inj.symm
  · next h =>
    simp only [reduceCtorEq, false_iff]
    rintro rfl
    exact h n rfl

theorem buildVec_eq_ok : buildVec c = .ok s ↔ ∃ inner, s = .vec inner ∧ inner.isSized ∧
    c = .schema inner := by
  simp only [buildVec, map_eq_ok, elementOf_eq_ok]
  constructor
  · rintro ⟨inner, ⟨rfl, h⟩, rfl⟩
    exact ⟨inner, rfl, h, rfl⟩
  · rintro ⟨inner, rfl, h, rfl⟩
    exact ⟨inner, ⟨rfl, h⟩, rfl⟩

theorem buildArray_eq_ok {length : Value} : buildArray c length = .ok s ↔
    ∃ inner n, s = .array inner n ∧ inner.isSized ∧ c = .schema inner ∧ length = .int n := by
  simp only [buildArray, bind_eq_ok, elementOf_eq_ok, lengthOf_eq_ok, pure_def, Except.ok.injEq]
  constructor
  · rintro ⟨inner, ⟨rfl, h⟩, n, rfl, rfl⟩
    exact ⟨inner, n, rfl, h, rfl, rfl⟩
  · rintro ⟨inner, n, rfl, h, rfl, rfl⟩
    exact ⟨inner, ⟨rfl, h⟩, n, rfl, rfl⟩

/-- An integer has one of the widths, given as an integer or as an equal floating-point number. -/
theorem buildInteger_eq_ok {bits signed : Value} : buildInteger bits signed = .ok s ↔
    ∃ w b, signed = .bool b ∧
      ((∃ n, bits = .int n ∧ Width.ofBits? n = some w ∧ s = .integer w b) ∨
        ∃ x, bits = .float x ∧ x.toInt?.bind Width.ofBits? = some w ∧ s = .floatInteger w b) := by
  cases bits with
  | int n =>
    cases hw : Width.ofBits? n with
    | none => simp [buildInteger, hw]
    | some w =>
      cases signed <;> simp [buildInteger, hw, eq_comm]
  | float x =>
    cases hw : x.toInt?.bind Width.ofBits? with
    | none => simp [buildInteger, hw]
    | some w =>
      cases signed <;> simp [buildInteger, hw, eq_comm]
  | _ => simp [buildInteger]

end Schema

/-! ### Every node that was built -/

namespace Blueprint

open Schema

variable {b : Blueprint} {s : Schema}

theorem build_eq_ok : b.build = .ok s ↔ b.offer = .ok (.schema s) := by
  simp only [build, bind_eq_ok]
  constructor
  · rintro ⟨c, hc, h⟩
    cases c with
    | schema t => cases h; exact hc
    | value v => cases h
  · intro h
    exact ⟨_, h, rfl⟩

theorem offer_integer {bits signed : Value} : (integer bits signed).offer = .ok (.schema s) ↔
    Schema.buildInteger bits signed = .ok s := by
  show (Schema.buildInteger bits signed).map Candidate.schema = _ ↔ _
  simp

theorem offer_fixedBytes {length : Value} : (fixedBytes length).offer = .ok (.schema s) ↔
    ∃ n : Nat, length = .int n ∧ s = .fixedBytes n := by
  show (buildFixedBytes length).map Candidate.schema = _ ↔ _
  simp only [buildFixedBytes, map_eq_ok, lengthOf_eq_ok, Candidate.schema.injEq]
  constructor
  · rintro ⟨_, ⟨n, rfl, rfl⟩, rfl⟩
    exact ⟨n, rfl, rfl⟩
  · rintro ⟨n, rfl, rfl⟩
    exact ⟨_, ⟨n, rfl, rfl⟩, rfl⟩

theorem offer_option {inner : Blueprint} : (option inner).offer = .ok (.schema s) ↔
    ∃ t, s = .option t ∧ inner.offer = .ok (.schema t) := by
  show (inner.offer >>= fun c => (buildOption c).map Candidate.schema) = _ ↔ _
  simp only [bind_eq_ok, map_eq_ok, buildOption, childOf_eq_ok, Candidate.schema.injEq]
  constructor
  · rintro ⟨_, h, _, ⟨t, rfl, rfl⟩, rfl⟩
    exact ⟨t, rfl, h⟩
  · rintro ⟨t, rfl, h⟩
    exact ⟨_, h, _, ⟨t, rfl, rfl⟩, rfl⟩

theorem offer_vec {inner : Blueprint} : (vec inner).offer = .ok (.schema s) ↔
    ∃ t, s = .vec t ∧ t.isSized ∧ inner.offer = .ok (.schema t) := by
  show (inner.offer >>= fun c => (buildVec c).map Candidate.schema) = _ ↔ _
  simp only [bind_eq_ok, map_eq_ok, buildVec_eq_ok, Candidate.schema.injEq]
  constructor
  · rintro ⟨_, h, _, ⟨t, rfl, hsized, rfl⟩, rfl⟩
    exact ⟨t, rfl, hsized, h⟩
  · rintro ⟨t, rfl, hsized, h⟩
    exact ⟨_, h, _, ⟨t, rfl, hsized, rfl⟩, rfl⟩

theorem offer_array {inner : Blueprint} {length : Value} :
    (array inner length).offer = .ok (.schema s) ↔ ∃ t n, s = .array t n ∧ t.isSized ∧
      length = .int (n : Nat) ∧ inner.offer = .ok (.schema t) := by
  show (inner.offer >>= fun c => (buildArray c length).map Candidate.schema) = _ ↔ _
  simp only [bind_eq_ok, map_eq_ok, buildArray_eq_ok, Candidate.schema.injEq]
  constructor
  · rintro ⟨_, h, _, ⟨t, n, rfl, hsized, rfl, rfl⟩, rfl⟩
    exact ⟨t, n, rfl, hsized, rfl, h⟩
  · rintro ⟨t, n, rfl, hsized, rfl, h⟩
    exact ⟨_, h, _, ⟨t, n, rfl, hsized, rfl, rfl⟩, rfl⟩

/-- The parts offer the fields, under their names. -/
def Offers (parts : List (Value × Blueprint)) (fields : List (Text × Schema)) : Prop :=
  List.Forall₂ (fun part f => part.1 = .text f.1 ∧ part.2.offer = .ok (.schema f.2)) parts fields

theorem offerEach_eq_fields {parts : List (Value × Blueprint)} {fields : List (Text × Schema)} :
    offerEach parts = .ok (fields.map fun f => (.text f.1, .schema f.2)) ↔ Offers parts fields := by
  rw [offerEach_eq_ok, List.forall₂_map_right_iff]
  rfl

theorem Offers.mem {parts : List (Value × Blueprint)} {fields : List (Text × Schema)}
    (h : Offers parts fields) {f : Text × Schema} (hf : f ∈ fields) :
    ∃ part ∈ parts, part.2.offer = .ok (.schema f.2) := by
  induction h with
  | nil => cases hf
  | cons head tail ih =>
    rcases List.mem_cons.mp hf with rfl | hf
    · exact ⟨_, List.mem_cons_self, head.2⟩
    · obtain ⟨part, hp, ho⟩ := ih hf
      exact ⟨part, List.mem_cons_of_mem _ hp, ho⟩

theorem offer_record {parts : List (Value × Blueprint)} :
    (record parts).offer = .ok (.schema s) ↔
      ∃ fields, s = .record fields ∧ namesSound fields ∧ Offers parts fields := by
  show (offerEach parts >>= fun cs => (buildRecord cs).map Candidate.schema) = _ ↔ _
  simp only [bind_eq_ok, map_eq_ok, buildRecord_eq_ok, Candidate.schema.injEq]
  constructor
  · rintro ⟨_, h, _, ⟨fields, rfl, hsound, rfl⟩, rfl⟩
    exact ⟨fields, rfl, hsound, offerEach_eq_fields.mp h⟩
  · rintro ⟨fields, rfl, hsound, h⟩
    exact ⟨_, offerEach_eq_fields.mpr h, _, ⟨fields, rfl, hsound, rfl⟩, rfl⟩

theorem offer_union {parts : List (Value × Blueprint)} :
    (union parts).offer = .ok (.schema s) ↔
      ∃ variants, s = .union variants ∧ (Schema.union variants).isSound ∧ Offers parts variants := by
  show (offerEach parts >>= fun cs => (buildUnion cs).map Candidate.schema) = _ ↔ _
  simp only [bind_eq_ok, map_eq_ok, buildUnion_eq_ok, Candidate.schema.injEq]
  constructor
  · rintro ⟨_, h, _, ⟨variants, rfl, hsound, rfl⟩, rfl⟩
    exact ⟨variants, rfl, hsound, offerEach_eq_fields.mp h⟩
  · rintro ⟨variants, rfl, hsound, h⟩
    exact ⟨_, offerEach_eq_fields.mpr h, _, ⟨variants, rfl, hsound, rfl⟩, rfl⟩

theorem sound_of_offer (h : b.offer = .ok (.schema s)) : s.all isSound := by
  induction b generalizing s with
  | value v => cases h
  | integer bits signed =>
    obtain ⟨w, b, -, ⟨n, -, -, rfl⟩ | ⟨x, -, -, rfl⟩⟩ := buildInteger_eq_ok.mp (offer_integer.mp h)
    · rfl
    · rfl
  | bool => cases h; rfl
  | text => cases h; rfl
  | bytes => cases h; rfl
  | fixedBytes length =>
    obtain ⟨n, -, rfl⟩ := offer_fixedBytes.mp h
    rfl
  | option inner ih =>
    obtain ⟨t, rfl, ht⟩ := offer_option.mp h
    exact all_option_iff.mpr ⟨rfl, ih ht⟩
  | vec inner ih =>
    obtain ⟨t, rfl, hsized, ht⟩ := offer_vec.mp h
    exact all_vec_iff.mpr ⟨hsized, ih ht⟩
  | array inner length ih =>
    obtain ⟨t, n, rfl, hsized, -, ht⟩ := offer_array.mp h
    exact all_array_iff.mpr ⟨hsized, ih ht⟩
  | record parts ih =>
    obtain ⟨fields, rfl, hsound, ho⟩ := offer_record.mp h
    refine all_record_iff.mpr ⟨hsound, fun f hf => ?_⟩
    obtain ⟨part, hpart, hf⟩ := ho.mem hf
    exact ih part hpart hf
  | union parts ih =>
    obtain ⟨variants, rfl, hsound, ho⟩ := offer_union.mp h
    refine all_union_iff.mpr ⟨hsound, fun f hf => ?_⟩
    obtain ⟨part, hpart, hf⟩ := ho.mem hf
    exact ih part hpart hf

theorem sound_of_build (h : b.build = .ok s) : s.all isSound :=
  sound_of_offer (build_eq_ok.mp h)

theorem exists_offers {fields : List (Text × Schema)}
    (h : ∀ f ∈ fields, ∃ b : Blueprint, b.offer = .ok (.schema f.2)) :
    ∃ parts, Offers parts fields := by
  induction fields with
  | nil => exact ⟨[], .nil⟩
  | cons f fields ih =>
    obtain ⟨⟨b, hb⟩, hfields⟩ := List.forall_mem_cons.mp h
    obtain ⟨parts, hparts⟩ := ih hfields
    exact ⟨(.text f.1, b) :: parts, .cons ⟨rfl, hb⟩ hparts⟩

theorem exists_offer (hs : s.all isSound) : ∃ b : Blueprint, b.offer = .ok (.schema s) := by
  induction s with
  | integer w signed =>
    have hwidth : Width.ofBits? w.bits = some w := by
      cases w <;> rfl
    refine ⟨.integer (.int w.bits) (.bool signed), ?_⟩
    exact offer_integer.mpr (buildInteger_eq_ok.mpr ⟨w, signed, rfl, .inl ⟨_, rfl, hwidth, rfl⟩⟩)
  | floatInteger w signed =>
    have hwidth : (Binary64.ofNat w.bits).toInt?.bind Width.ofBits? = some w := by
      cases w <;> decide +kernel
    refine ⟨.integer (.float (.ofNat w.bits)) (.bool signed), ?_⟩
    exact offer_integer.mpr (buildInteger_eq_ok.mpr ⟨w, signed, rfl, .inr ⟨_, rfl, hwidth, rfl⟩⟩)
  | bool => exact ⟨.bool, rfl⟩
  | text => exact ⟨.text, rfl⟩
  | bytes => exact ⟨.bytes, rfl⟩
  | fixedBytes length => exact ⟨.fixedBytes (.int length), rfl⟩
  | option inner ih =>
    obtain ⟨b, hb⟩ := ih (all_option hs)
    exact ⟨.option b, offer_option.mpr ⟨inner, rfl, hb⟩⟩
  | vec inner ih =>
    obtain ⟨b, hb⟩ := ih (all_vec hs)
    have hsized : (Schema.vec inner).isSound := all_self hs
    exact ⟨.vec b, offer_vec.mpr ⟨inner, rfl, hsized, hb⟩⟩
  | array inner length ih =>
    obtain ⟨b, hb⟩ := ih (all_array hs)
    have hsized : (Schema.array inner length).isSound := all_self hs
    exact ⟨.array b (.int length), offer_array.mpr ⟨inner, length, rfl, hsized, rfl, hb⟩⟩
  | record fields ih =>
    obtain ⟨parts, hparts⟩ := exists_offers fun f hf => ih f hf (all_record hs f hf)
    exact ⟨.record parts, offer_record.mpr ⟨fields, rfl, all_self hs, hparts⟩⟩
  | union variants ih =>
    obtain ⟨parts, hparts⟩ := exists_offers fun f hf => ih f hf (all_union hs f hf)
    exact ⟨.union parts, offer_union.mpr ⟨variants, rfl, all_self hs, hparts⟩⟩

/-- The checks are all that a schema needs. -/
theorem exists_build (hs : s.all isSound) : ∃ b : Blueprint, b.build = .ok s := by
  obtain ⟨b, hb⟩ := exists_offer hs
  exact ⟨b, build_eq_ok.mpr hb⟩

/-! ### Widths that are integers -/

mutual

/-- No width is given as a floating-point number. -/
def wholeWidths : Blueprint → Bool
  | .integer (.float _) _ => false
  | .option inner => wholeWidths inner
  | .vec inner => wholeWidths inner
  | .array inner _ => wholeWidths inner
  | .record fields => wholeWidthsEach fields
  | .union variants => wholeWidthsEach variants
  | _ => true

def wholeWidthsEach : List (Value × Blueprint) → Bool
  | [] => true
  | (_, b) :: rest => wholeWidths b && wholeWidthsEach rest

end

theorem wholeWidthsEach_eq (parts : List (Value × Blueprint)) :
    wholeWidthsEach parts = parts.all fun part => part.2.wholeWidths := by
  induction parts with
  | nil => rfl
  | cons part parts ih => simp [wholeWidthsEach, ih]

theorem exact_of_offer (hw : b.wholeWidths) (h : b.offer = .ok (.schema s)) : s.all isExact := by
  induction b generalizing s with
  | value v => cases h
  | integer bits signed =>
    obtain ⟨w, b, -, ⟨n, -, -, rfl⟩ | ⟨x, rfl, -, rfl⟩⟩ := buildInteger_eq_ok.mp (offer_integer.mp h)
    · rfl
    · cases hw
  | bool => cases h; rfl
  | text => cases h; rfl
  | bytes => cases h; rfl
  | fixedBytes length =>
    obtain ⟨n, -, rfl⟩ := offer_fixedBytes.mp h
    rfl
  | option inner ih =>
    obtain ⟨t, rfl, ht⟩ := offer_option.mp h
    exact all_option_iff.mpr ⟨rfl, ih hw ht⟩
  | vec inner ih =>
    obtain ⟨t, rfl, -, ht⟩ := offer_vec.mp h
    exact all_vec_iff.mpr ⟨rfl, ih hw ht⟩
  | array inner length ih =>
    obtain ⟨t, n, rfl, -, -, ht⟩ := offer_array.mp h
    exact all_array_iff.mpr ⟨rfl, ih hw ht⟩
  | record parts ih =>
    obtain ⟨fields, rfl, -, ho⟩ := offer_record.mp h
    rw [wholeWidths, wholeWidthsEach_eq, List.all_eq_true] at hw
    refine all_record_iff.mpr ⟨rfl, fun f hf => ?_⟩
    obtain ⟨part, hpart, hf⟩ := ho.mem hf
    exact ih part hpart (hw part hpart) hf
  | union parts ih =>
    obtain ⟨variants, rfl, -, ho⟩ := offer_union.mp h
    rw [wholeWidths, wholeWidthsEach_eq, List.all_eq_true] at hw
    refine all_union_iff.mpr ⟨rfl, fun f hf => ?_⟩
    obtain ⟨part, hpart, hf⟩ := ho.mem hf
    exact ih part hpart (hw part hpart) hf

theorem exact_of_build (hw : b.wholeWidths) (h : b.build = .ok s) : s.all isExact :=
  exact_of_offer hw (build_eq_ok.mp h)

end Blueprint

end LedgerWire
