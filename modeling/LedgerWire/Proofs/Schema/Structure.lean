import LedgerWire.Schema.Catalog

/-!
# Schemas by their nodes

Induction over a schema gives the hypothesis for every field of a record and every variant of a union.
`Schema.all` says that every node passes a test; the tests are

* `isExact`: the node is no integer whose width was given as a floating-point number;
* `isFlat`: the node is no optional value directly around an optional value;
* `isSound`: names are distinct and not empty, a union has between one and 256 variants, and the
  items of a list have a size that is not zero.
-/

namespace LedgerWire

namespace Schema

@[induction_eliminator]
theorem induction {motive : Schema → Prop}
    (integer : ∀ w signed, motive (.integer w signed))
    (floatInteger : ∀ w signed, motive (.floatInteger w signed))
    (bool : motive .bool) (text : motive .text) (bytes : motive .bytes)
    (fixedBytes : ∀ length, motive (.fixedBytes length))
    (option : ∀ inner, motive inner → motive (.option inner))
    (vec : ∀ inner, motive inner → motive (.vec inner))
    (array : ∀ inner length, motive inner → motive (.array inner length))
    (record : ∀ fields, (∀ f ∈ fields, motive f.2) → motive (.record fields))
    (union : ∀ variants, (∀ f ∈ variants, motive f.2) → motive (.union variants))
    (s : Schema) : motive s :=
  Schema.rec (motive_1 := motive) (motive_2 := fun fields => ∀ f ∈ fields, motive f.2)
    (motive_3 := fun f => motive f.2)
    integer floatInteger bool text bytes fixedBytes option vec array record union
    (fun _ h => absurd h List.not_mem_nil)
    (fun _ _ head tail f hf => (List.mem_cons.mp hf).elim (fun h => h ▸ head) (tail f))
    (fun _ _ ih => ih) s

/-! ### Tests on every node -/

mutual

def all (p : Schema → Bool) : Schema → Bool
  | .option inner => p (.option inner) && all p inner
  | .vec inner => p (.vec inner) && all p inner
  | .array inner length => p (.array inner length) && all p inner
  | .record fields => p (.record fields) && allOf p fields
  | .union variants => p (.union variants) && allOf p variants
  | s => p s

def allOf (p : Schema → Bool) : List (Text × Schema) → Bool
  | [] => true
  | (_, s) :: fields => all p s && allOf p fields

end

@[simp] theorem allOf_eq (p : Schema → Bool) (fields : List (Text × Schema)) :
    allOf p fields = fields.all fun f => f.2.all p := by
  induction fields with
  | nil => rfl
  | cons f fields ih =>
    show (f.2.all p && allOf p fields) = _
    rw [ih, List.all_cons]

variable {p : Schema → Bool} {inner : Schema} {length : Nat} {fields variants : List (Text × Schema)}

@[simp] theorem all_option_iff : (option inner).all p ↔ p (option inner) ∧ inner.all p := by
  show (p (option inner) && inner.all p) = true ↔ _
  rw [Bool.and_eq_true]

@[simp] theorem all_vec_iff : (vec inner).all p ↔ p (vec inner) ∧ inner.all p := by
  show (p (vec inner) && inner.all p) = true ↔ _
  rw [Bool.and_eq_true]

@[simp]
theorem all_array_iff : (array inner length).all p ↔ p (array inner length) ∧ inner.all p := by
  show (p (array inner length) && inner.all p) = true ↔ _
  rw [Bool.and_eq_true]

theorem all_record_iff :
    (record fields).all p ↔ p (record fields) ∧ ∀ f ∈ fields, f.2.all p := by
  show (p (record fields) && allOf p fields) = true ↔ _
  rw [Bool.and_eq_true, allOf_eq, List.all_eq_true]

theorem all_union_iff :
    (union variants).all p ↔ p (union variants) ∧ ∀ f ∈ variants, f.2.all p := by
  show (p (union variants) && allOf p variants) = true ↔ _
  rw [Bool.and_eq_true, allOf_eq, List.all_eq_true]

theorem all_self {s : Schema} (h : s.all p) : p s := by
  cases s with
  | option inner => exact (all_option_iff.mp h).1
  | vec inner => exact (all_vec_iff.mp h).1
  | array inner length => exact (all_array_iff.mp h).1
  | record fields => exact (all_record_iff.mp h).1
  | union variants => exact (all_union_iff.mp h).1
  | _ => exact h

theorem all_option (h : (option inner).all p) : inner.all p := (all_option_iff.mp h).2

theorem all_vec (h : (vec inner).all p) : inner.all p := (all_vec_iff.mp h).2

theorem all_array (h : (array inner length).all p) : inner.all p := (all_array_iff.mp h).2

theorem all_record (h : (record fields).all p) : ∀ f ∈ fields, f.2.all p := (all_record_iff.mp h).2

theorem all_union (h : (union variants).all p) : ∀ f ∈ variants, f.2.all p := (all_union_iff.mp h).2

/-! ### The tests -/

/-- The width was given as an integer. -/
def isExact : Schema → Bool
  | .floatInteger _ _ => false
  | _ => true

def isFlat : Schema → Bool
  | .option (.option _) => false
  | _ => true

/-- The fewest bytes can be told, and are not none. -/
def isSized (s : Schema) : Bool :=
  match s.minSize with
  | .ok size => !size.isZero
  | .error _ => false

def namesSound (fields : List (Text × Schema)) : Bool :=
  (fields.all fun f => !f.1.isEmpty) && decide (fields.map (·.1)).Nodup

def isSound : Schema → Bool
  | .vec inner => inner.isSized
  | .array inner _ => inner.isSized
  | .record fields => namesSound fields
  | .union variants =>
    namesSound variants && !variants.isEmpty && decide (variants.length ≤ maxVariants)
  | _ => true

theorem nodup_of_names {fields : List (Text × Schema)} (h : namesSound fields) :
    (fields.map (·.1)).Nodup := by
  simp only [namesSound, Bool.and_eq_true, decide_eq_true_eq] at h
  exact h.2

theorem nodup_of_record {fields : List (Text × Schema)} (h : (record fields).all isSound) :
    (fields.map (·.1)).Nodup := by
  have := all_self h
  exact nodup_of_names this

theorem nodup_of_union {variants : List (Text × Schema)} (h : (union variants).all isSound) :
    (variants.map (·.1)).Nodup := by
  have := all_self h
  simp only [isSound, namesSound, Bool.and_eq_true, decide_eq_true_eq] at this
  exact this.1.1.2

theorem ne_nil_of_union {variants : List (Text × Schema)} (h : (union variants).all isSound) :
    variants ≠ [] := by
  rintro rfl
  have := all_self h
  simp [isSound] at this

theorem length_of_union {variants : List (Text × Schema)} (h : (union variants).all isSound) :
    variants.length ≤ 256 := by
  have := all_self h
  simp only [isSound, Bool.and_eq_true, decide_eq_true_eq] at this
  exact this.2

theorem minSize_of_sized {s : Schema} (h : s.isSized) :
    ∃ size, s.minSize = .ok size ∧ size.isZero = false := by
  unfold isSized at h
  cases hs : s.minSize with
  | error fault => simp [hs] at h
  | ok size => exact ⟨size, rfl, by simpa [hs] using h⟩

/-! ### The fewest bytes -/

theorem sumMinSize_congr {fields fields' : List (Text × Schema)}
    (h : fields.map (·.2.minSize) = fields'.map (·.2.minSize)) (sum : Quantity) :
    sumMinSize sum fields = sumMinSize sum fields' := by
  induction fields generalizing fields' sum with
  | nil =>
    obtain rfl := List.map_eq_nil_iff.mp h.symm
    rfl
  | cons f fields ih =>
    obtain ⟨f', fields', rfl, hf, hfields⟩ := List.map_eq_cons_iff.mp h.symm
    have hlater := ih hfields.symm
    rw [sumMinSize, sumMinSize, hf]
    simp only [hlater]

theorem leastMinSize_congr {variants variants' : List (Text × Schema)}
    (h : variants.map (·.2.minSize) = variants'.map (·.2.minSize)) (least : Quantity) :
    leastMinSize least variants = leastMinSize least variants' := by
  induction variants generalizing variants' least with
  | nil =>
    obtain rfl := List.map_eq_nil_iff.mp h.symm
    rfl
  | cons f variants ih =>
    obtain ⟨f', variants', rfl, hf, hvariants⟩ := List.map_eq_cons_iff.mp h.symm
    have hlater := ih hvariants.symm
    rw [leastMinSize, leastMinSize, hf]
    simp only [hlater]

/-- The fewest bytes of a record are told from those of its fields alone. -/
theorem minSize_record_congr {fields fields' : List (Text × Schema)}
    (h : fields.map (·.2.minSize) = fields'.map (·.2.minSize)) :
    (record fields).minSize = (record fields').minSize := by
  rw [minSize, minSize, sumMinSize_congr h]

/-- The fewest bytes of a union are told from those of its variants alone. -/
theorem minSize_union_congr {variants variants' : List (Text × Schema)}
    (h : variants.map (·.2.minSize) = variants'.map (·.2.minSize)) :
    (union variants).minSize = (union variants').minSize := by
  cases variants with
  | nil =>
    obtain rfl := List.map_eq_nil_iff.mp h.symm
    rfl
  | cons f variants =>
    obtain ⟨f', variants', rfl, hf, hvariants⟩ := List.map_eq_cons_iff.mp h.symm
    have hlater := leastMinSize_congr hvariants.symm
    rw [minSize, minSize, hf]
    simp only [hlater]

end Schema

/-! ### Schemas with a name -/

theorem mem_of_lookup {α β : Type} [BEq α] [LawfulBEq α] {key : α} {b : β} {entries : List (α × β)}
    (h : entries.lookup key = some b) : (key, b) ∈ entries := by
  obtain ⟨front, back, rfl, -⟩ := List.lookup_eq_some_iff.mp h
  exact List.mem_append_right _ List.mem_cons_self

namespace Catalog

open Schema (isSound isExact isFlat)

theorem named_nodes : ∀ f ∈ named, f.2.all isSound ∧ f.2.all isExact ∧ f.2.all isFlat := by
  decide

theorem mem_of_get {name : Text} {s : Schema} (h : get name = .ok s) : (name, s) ∈ named := by
  unfold get at h
  cases hlookup : named.lookup name with
  | none =>
    rw [hlookup] at h
    cases h
  | some s' =>
    rw [hlookup] at h
    cases h
    exact mem_of_lookup hlookup

/-- What every schema with a name has of its nodes. -/
theorem nodes_of_get {name : Text} {s : Schema} (h : get name = .ok s) :
    s.all isSound ∧ s.all isExact ∧ s.all isFlat :=
  named_nodes (name, s) (mem_of_get h)

end Catalog

end LedgerWire
