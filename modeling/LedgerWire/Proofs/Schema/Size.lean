import LedgerWire.Proofs.Number.Quantity
import LedgerWire.Proofs.Schema.Layout

/-!
# The shortest layouts

`Schema.shortest?` is the length of the shortest layouts of a schema, and nothing where no value has
one. No layout is shorter, one is so short and can be read whatever follows it, and where every width
was given as an integer it is what `Schema.minSize` tells.
-/

namespace LedgerWire

namespace Schema

open Reader

mutual

/-- How short a layout can be. -/
def shortest? : Schema → Option Nat
  | .integer w _ => some w.bytes
  | .floatInteger _ _ => none
  | .bool => some 1
  | .text => some lengthSize
  | .bytes => some lengthSize
  | .fixedBytes length => some length
  | .option _ => some 1
  | .vec _ => some lengthSize
  | .array inner length => if length = 0 then some 0 else (shortest? inner).map (length * ·)
  | .record fields => shortestOf fields
  | .union variants => (leastOf variants).map (1 + ·)

/-- Of fields, one after the other. -/
def shortestOf : List (Text × Schema) → Option Nat
  | [] => some 0
  | (_, s) :: fields => do
    let m ← shortest? s
    let n ← shortestOf fields
    pure (m + n)

/-- Of the variant where it is least. -/
def leastOf : List (Text × Schema) → Option Nat
  | [] => none
  | (_, s) :: variants => (shortest? s).merge min (leastOf variants)

end

variable {r : Rules} {s inner : Schema} {fields variants : List (Text × Schema)} {v : Value}
  {bs : Bytes} {m : Nat}

theorem shortestOf_cons {f : Text × Schema} :
    shortestOf (f :: fields) = some m ↔
      ∃ a b, shortest? f.2 = some a ∧ shortestOf fields = some b ∧ a + b = m := by
  simp [shortestOf, Option.bind_eq_some_iff]

theorem shortestOf_append {later : List (Text × Schema)} :
    shortestOf (fields ++ later) = some m ↔
      ∃ a b, shortestOf fields = some a ∧ shortestOf later = some b ∧ a + b = m := by
  induction fields generalizing m with
  | nil => simp [shortestOf]
  | cons f fields ih =>
    simp only [List.cons_append, shortestOf_cons, ih]
    constructor
    · rintro ⟨a, _, ha, ⟨b, c, hb, hc, rfl⟩, rfl⟩
      exact ⟨a + b, c, ⟨a, b, ha, hb, rfl⟩, hc, Nat.add_assoc a b c⟩
    · rintro ⟨_, c, ⟨a, b, ha, hb, rfl⟩, hc, rfl⟩
      exact ⟨a, b + c, ha, ⟨b, c, hb, hc, rfl⟩, (Nat.add_assoc a b c).symm⟩

theorem leastOf_le {f : Text × Schema} (hf : f ∈ variants) (hm : shortest? f.2 = some m) :
    ∃ n, leastOf variants = some n ∧ n ≤ m := by
  induction variants with
  | nil => cases hf
  | cons g variants ih =>
    rcases List.mem_cons.mp hf with rfl | hf
    · cases hl : leastOf variants with
      | none => exact ⟨m, by simp [leastOf, hm, hl], le_refl m⟩
      | some n => exact ⟨min m n, by simp [leastOf, hm, hl], Nat.min_le_left m n⟩
    · obtain ⟨n, hn, hle⟩ := ih hf
      cases hg : shortest? g.2 with
      | none => exact ⟨n, by simp [leastOf, hg, hn], hle⟩
      | some k =>
        exact ⟨min k n, by simp [leastOf, hg, hn], Nat.le_trans (Nat.min_le_right k n) hle⟩

theorem exists_of_leastOf (h : leastOf variants = some m) : ∃ f ∈ variants, shortest? f.2 = some m := by
  induction variants generalizing m with
  | nil => cases h
  | cons g variants ih =>
    cases hg : shortest? g.2 with
    | none =>
      obtain ⟨f, hf, hm⟩ := ih (m := m) (by simpa [leastOf, hg] using h)
      exact ⟨f, List.mem_cons_of_mem g hf, hm⟩
    | some k =>
      cases hl : leastOf variants with
      | none => exact ⟨g, List.mem_cons_self, by simpa [leastOf, hg, hl] using h⟩
      | some n =>
        have hmin : min k n = m := by simpa [leastOf, hg, hl] using h
        rcases Nat.le_total k n with hkn | hkn
        · exact ⟨g, List.mem_cons_self, by rw [hg, ← hmin, Nat.min_eq_left hkn]⟩
        · obtain ⟨f, hf, hm⟩ := ih hl
          exact ⟨f, List.mem_cons_of_mem g hf, by rw [hm, ← hmin, Nat.min_eq_right hkn]⟩

/-! ### No layout is shorter -/

theorem le_of_layoutItems {items : List Value} {parts : List Bytes}
    (ih : ∀ {v bs}, Layout r inner v bs → ∃ m, shortest? inner = some m ∧ m ≤ bs.length)
    (h : List.Forall₂ (Layout r inner) items parts) (hm : shortest? inner = some m) :
    items.length * m ≤ parts.flatten.length := by
  induction h with
  | nil => simp
  | cons head tail iht =>
    obtain ⟨n, hn, hle⟩ := ih head
    cases hm.symm.trans hn
    rw [List.length_cons, Nat.succ_mul, List.flatten_cons, List.length_append]
    omega

theorem le_of_layoutFields {entries : Entries}
    (ih : ∀ f ∈ fields, ∀ {v bs}, Layout r f.2 v bs → ∃ m, shortest? f.2 = some m ∧ m ≤ bs.length)
    (h : LayoutFields r fields entries bs) :
    ∃ m, shortestOf fields = some m ∧ m ≤ bs.length := by
  induction fields generalizing entries bs with
  | nil => exact ⟨0, rfl, Nat.zero_le _⟩
  | cons f fields ihf =>
    cases h with
    | cons head tail =>
      obtain ⟨a, ha, hle₁⟩ := ih _ List.mem_cons_self head
      obtain ⟨b, hb, hle₂⟩ := ihf (fun g hg => ih g (List.mem_cons_of_mem _ hg)) tail
      refine ⟨a + b, shortestOf_cons.mpr ⟨a, b, ha, hb, rfl⟩, ?_⟩
      rw [List.length_append]
      exact Nat.add_le_add hle₁ hle₂

/-- A schema that a value has a layout by has shortest layouts, and this is none shorter. -/
theorem le_of_layout (h : Layout r s v bs) : ∃ m, shortest? s = some m ∧ m ≤ bs.length := by
  induction s generalizing v bs with
  | integer w signed =>
    cases h with
    | integer range => exact ⟨_, rfl, by simp⟩
  | floatInteger w signed => cases h
  | bool =>
    cases h with
    | bool b => exact ⟨1, rfl, le_refl 1⟩
  | text =>
    cases h with
    | text => exact ⟨_, rfl, by simp⟩
  | bytes =>
    cases h with
    | bytes => exact ⟨_, rfl, by simp⟩
  | fixedBytes length =>
    cases h with
    | fixedBytes => exact ⟨_, rfl, le_refl _⟩
  | option inner ih =>
    cases h with
    | none => exact ⟨1, rfl, le_refl 1⟩
    | some => exact ⟨1, rfl, by simp⟩
  | vec inner ih =>
    cases h with
    | vec => exact ⟨_, rfl, by simp⟩
  | array inner length ih =>
    cases h with
    | @array _ items _ parts =>
      obtain ⟨bodies, hp, rfl⟩ := layoutItems_iff.mp parts
      cases hp with
      | nil => exact ⟨0, rfl, Nat.zero_le _⟩
      | cons head tail =>
        obtain ⟨m, hm, -⟩ := ih head
        exact ⟨_, by simp [shortest?, hm], le_of_layoutItems ih (.cons head tail) hm⟩
  | record fields ih =>
    cases h with
    | record parts => exact le_of_layoutFields ih parts
  | union variants ih =>
    cases h with
    | union variant part =>
      have hmem := List.mem_of_getElem? variant
      obtain ⟨m, hm, hle⟩ := ih _ hmem part
      obtain ⟨n, hn, hle'⟩ := leastOf_le hmem hm
      refine ⟨1 + n, by simp [shortest?, hn], ?_⟩
      rw [List.length_cons]
      omega

/-! ### One is so short -/

/-- The encoding of `v` is of length `m`, and it is read back whatever follows it. -/
structure Lightest (s : Schema) (m : Nat) (v : Value) (bs : Bytes) : Prop where
  written : encode s v = .ok bs
  length : bs.length = m
  taken : ∀ rest, Takes (read s) bs v rest

theorem admits_zero (h : inner.isSized) (left : Nat) : Admits inner 0 left := by
  obtain ⟨size, hsize, -⟩ := minSize_of_sized h
  obtain ⟨least, hmul, hless⟩ := Quantity.zero_mul size left
  exact ⟨least, by rw [hsize]; exact hmul, hless⟩

theorem forall₂_replicate {α β : Type} {p : α → β → Prop} {a : α} {b : β} (h : p a b) (count : Nat) :
    List.Forall₂ p (List.replicate count a) (List.replicate count b) := by
  induction count with
  | zero => exact .nil
  | succ count ih => exact .cons h ih

theorem Lightest.encode_items {item : Value} (h : Lightest inner m item bs) (count : Nat) :
    List.Forall₂ (fun item part => encode inner item = .ok part) (List.replicate count item)
      (List.replicate count bs) :=
  forall₂_replicate (p := fun item part => encode inner item = .ok part) h.written count

theorem Lightest.takes_items {item : Value} (h : Lightest inner m item bs) (count : Nat)
    (rest : Bytes) :
    Takes (readItems (read inner) count) (List.replicate count bs).flatten
      (List.replicate count item) rest := by
  have hitems : List.Forall₂ (fun item part => ∀ rest', rest.length ≤ rest'.length →
      Takes (read inner) part item rest') (List.replicate count item) (List.replicate count bs) :=
    forall₂_replicate (fun rest' _ => h.taken rest') count
  have := Schema.takes_items hitems
  rwa [List.length_replicate] at this

theorem Lightest.array {item : Value} (h : Lightest inner m item bs) (length : Nat) :
    Lightest (.array inner length) (length * m) (.list (.replicate length item))
      (List.replicate length bs).flatten := by
  have hl : (List.replicate length item).length = length := List.length_replicate
  refine ⟨encode_array.mpr ⟨_, _, rfl, hl, h.encode_items length, rfl⟩, ?_, fun rest => ?_⟩
  · simp [h.length]
  · have := takes_array (.replicate length item) (by rw [hl]; exact h.takes_items length rest)
    rwa [hl] at this

theorem exists_lightest_rows
    (ih : ∀ f ∈ fields, ∀ {m}, shortest? f.2 = some m → ∃ v bs, Lightest f.2 m v bs)
    (h : shortestOf fields = some m) :
    ∃ rows : List Row, rows.map Row.field = fields ∧ (∀ row ∈ rows, row.Encodes) ∧
      (rows.map (·.bytes)).flatten.length = m ∧
      ∀ rest, Takes (readFields fields) (rows.map (·.bytes)).flatten (rows.map Row.entry) rest := by
  induction fields generalizing m with
  | nil =>
    cases h
    exact ⟨[], rfl, by simp, rfl, fun rest offset => readFields_nil.mpr ⟨rfl, rfl⟩⟩
  | cons f fields ihf =>
    obtain ⟨a, b, ha, hb, rfl⟩ := shortestOf_cons.mp h
    obtain ⟨v, bs, light⟩ := ih f List.mem_cons_self ha
    obtain ⟨rows, rfl, he, hl, ht⟩ := ihf (fun g hg => ih g (List.mem_cons_of_mem f hg)) hb
    refine ⟨⟨f.1, f.2, v, bs⟩ :: rows, rfl, List.forall_mem_cons.mpr ⟨light.written, he⟩, ?_,
      fun rest => takes_fields_cons (r := ⟨f.1, f.2, v, bs⟩) (light.taken _) (ht rest)⟩
    rw [List.map_cons, List.flatten_cons, List.length_append, hl, light.length]

theorem exists_lightest (hs : s.all isSound) (h : shortest? s = some m) :
    ∃ v bs, Lightest s m v bs := by
  induction s generalizing m with
  | integer w signed =>
    cases h
    have range : w.minInt signed ≤ 0 ∧ 0 ≤ w.maxInt signed := by
      cases w <;> cases signed <;> decide
    exact ⟨.int 0, _, encode_integer.mpr ⟨0, rfl, range, rfl⟩, Bytes.length_ofIntLE _ _,
      takes_integer range⟩
  | floatInteger w signed => cases h
  | bool =>
    cases h
    exact ⟨.bool false, _, encode_bool.mpr ⟨false, rfl, rfl⟩, rfl, takes_bool false⟩
  | text =>
    cases h
    exact ⟨.text [], _, encode_text.mpr ⟨[], [], rfl, rfl, Nat.zero_le _, rfl⟩,
      by simp, takes_text rfl (Nat.zero_le _)⟩
  | bytes =>
    cases h
    exact ⟨.bytes [], _, encode_bytes.mpr ⟨[], .inl rfl, Nat.zero_le _, rfl⟩,
      by simp, takes_bytes (Nat.zero_le _)⟩
  | fixedBytes length =>
    cases h
    have hl : (List.replicate length (0 : UInt8)).length = length := List.length_replicate
    exact ⟨.bytes (.replicate length 0), _, encode_fixedBytes.mpr ⟨.inl rfl, hl⟩, hl,
      takes_fixedBytes hl⟩
  | option inner ih =>
    cases h
    exact ⟨.none, [0], encode_option_none, rfl, takes_none inner⟩
  | vec inner ih =>
    cases h
    refine ⟨.list [], _, encode_vec.mpr ⟨[], [], rfl, Nat.zero_le _, .nil, rfl⟩,
      by simp, fun rest => ?_⟩
    exact takes_vec [] (Nat.zero_le _)
      (admits_zero (all_self (p := isSound) hs) _)
      (fun offset => readItems_zero.mpr ⟨rfl, rfl⟩)
  | array inner length ih =>
    by_cases h0 : length = 0
    · subst h0
      cases h
      exact ⟨.list [], [], encode_array.mpr ⟨[], [], rfl, rfl, .nil, rfl⟩, rfl, fun rest =>
        takes_array [] fun offset => readItems_zero.mpr ⟨rfl, rfl⟩⟩
    · simp only [shortest?, if_neg h0, Option.map_eq_some_iff] at h
      obtain ⟨k, hk, rfl⟩ := h
      obtain ⟨item, bs, light⟩ := ih (all_array hs) hk
      exact ⟨_, _, light.array length⟩
  | record fields ih =>
    obtain ⟨rows, rfl, he, hl, ht⟩ :=
      exists_lightest_rows (fun f hf => ih f hf (all_record hs f hf)) h
    exact ⟨.map (rows.map Row.entry), _,
      (encode_record (nodup_of_record hs)).mpr ⟨_, rows, rfl, rfl, he, .refl _, rfl⟩, hl,
      fun rest => takes_record (ht rest)⟩
  | union variants ih =>
    simp only [shortest?, Option.map_eq_some_iff] at h
    obtain ⟨k, hk, rfl⟩ := h
    obtain ⟨f, hf, hm⟩ := exists_of_leastOf hk
    obtain ⟨payload, bs, light⟩ := ih f hf (all_union hs f hf) hm
    obtain ⟨index, hi⟩ := List.getElem?_of_mem hf
    exact ⟨.map [(.text f.1, payload)], _,
      (encode_union (nodup_of_union hs)).mpr
        ⟨index, f.1, f.2, payload, bs, hi, rfl, light.written, rfl⟩,
      by rw [List.length_cons, light.length, Nat.add_comm],
      fun rest => takes_union (length_of_union hs) hi (light.taken rest)⟩

/-! ### Widths that are integers -/

@[simp] theorem least_int (m n : Nat) : (Quantity.int m).least (.int n) = .int (min m n : Nat) := by
  unfold Quantity.least
  rw [Quantity.less_int]
  by_cases h : n < m
  · rw [if_pos (by simpa using h), Nat.min_eq_right (Nat.le_of_lt h)]
  · rw [if_neg (by simpa using h), Nat.min_eq_left (Nat.le_of_not_lt h)]

theorem sumMinSize_of_exact
    (ih : ∀ f ∈ fields, ∃ m : Nat, f.2.minSize = .ok (.int m) ∧ shortest? f.2 = some m) (sum : Nat) :
    ∃ m : Nat, sumMinSize (.int sum) fields = .ok (.int (sum + m : Nat)) ∧
      shortestOf fields = some m := by
  induction fields generalizing sum with
  | nil => exact ⟨0, rfl, rfl⟩
  | cons f fields ihf =>
    obtain ⟨a, hsize, ha⟩ := ih f List.mem_cons_self
    obtain ⟨b, hsum, hb⟩ := ihf (fun g hg => ih g (List.mem_cons_of_mem f hg)) (sum + a)
    refine ⟨a + b, ?_, shortestOf_cons.mpr ⟨a, b, ha, hb, rfl⟩⟩
    rw [← Nat.add_assoc, ← hsum]
    simp [sumMinSize, hsize]

theorem leastMinSize_of_exact
    (ih : ∀ f ∈ variants, ∃ m : Nat, f.2.minSize = .ok (.int m) ∧ shortest? f.2 = some m)
    (least : Nat) :
    ∃ m : Nat, leastMinSize (.int least) variants = .ok (.int m) ∧
      (some least).merge min (leastOf variants) = some m := by
  induction variants generalizing least with
  | nil => exact ⟨least, rfl, rfl⟩
  | cons f variants ihv =>
    obtain ⟨a, hsize, ha⟩ := ih f List.mem_cons_self
    obtain ⟨m, hleast, hm⟩ := ihv (fun g hg => ih g (List.mem_cons_of_mem f hg)) (min least a)
    refine ⟨m, ?_, ?_⟩
    · rw [← hleast]
      simp [leastMinSize, hsize]
    · rw [← hm]
      cases hl : leastOf variants <;> simp [leastOf, ha, hl, Nat.min_assoc]

/-- The fewest bytes that are told are the fewest bytes there are. -/
theorem minSize_of_exact (hs : s.all isSound) (he : s.all isExact) :
    ∃ m : Nat, s.minSize = .ok (.int m) ∧ shortest? s = some m := by
  induction s with
  | integer w signed => exact ⟨_, rfl, rfl⟩
  | floatInteger w signed => exact absurd (all_self he) (by simp [isExact])
  | bool => exact ⟨1, rfl, rfl⟩
  | text => exact ⟨_, rfl, rfl⟩
  | bytes => exact ⟨_, rfl, rfl⟩
  | fixedBytes length => exact ⟨length, rfl, rfl⟩
  | option inner ih => exact ⟨1, rfl, rfl⟩
  | vec inner ih => exact ⟨_, rfl, rfl⟩
  | array inner length ih =>
    obtain ⟨m, hsize, hm⟩ := ih (all_array hs) (all_array he)
    refine ⟨length * m, ?_, ?_⟩
    · rw [Nat.mul_comm, Int.natCast_mul, ← Quantity.mul_int]
      simp [minSize, hsize]
    · by_cases h0 : length = 0
      · simp [shortest?, h0]
      · simp [shortest?, h0, hm]
  | record fields ih =>
    obtain ⟨m, hsum, hm⟩ :=
      sumMinSize_of_exact (fun f hf => ih f hf (all_record hs f hf) (all_record he f hf)) 0
    rw [Nat.zero_add] at hsum
    exact ⟨m, hsum, hm⟩
  | union variants ih =>
    obtain ⟨f, variants, rfl⟩ := List.exists_cons_of_ne_nil (ne_nil_of_union hs)
    have hall := fun g hg => ih g hg (all_union hs g hg) (all_union he g hg)
    obtain ⟨a, hsize, ha⟩ := hall f List.mem_cons_self
    obtain ⟨m, hleast, hm⟩ :=
      leastMinSize_of_exact (fun g hg => hall g (List.mem_cons_of_mem f hg)) a
    refine ⟨1 + m, ?_, ?_⟩
    · rw [Int.natCast_add, Int.natCast_one, ← Quantity.add_int]
      simp [minSize, hsize, hleast]
    · simp [shortest?, leastOf, ha, hm]

/-- So many items are let through just where the shortest of them fit. -/
theorem admits_iff_of_exact (hs : inner.all isSound) (he : inner.all isExact)
    (hm : shortest? inner = some m) {count left : Nat} :
    Admits inner count left ↔ count * m ≤ left := by
  obtain ⟨k, hsize, hk⟩ := minSize_of_exact hs he
  cases hm.symm.trans hk
  have hmul : inner.minSize.bind (Quantity.int count).mul = .ok (.int (count * m : Nat)) := by
    rw [hsize, Int.natCast_mul]
    exact Quantity.mul_int count m
  unfold Admits
  simp only [hmul, Except.ok.injEq, exists_eq_left', Quantity.less_int, decide_eq_false_iff_not]
  omega

/-! ### No bytes at all -/

theorem isNull_of_shortestOf {sum size : Quantity}
    (ih : ∀ f ∈ fields, shortest? f.2 = some 0 → ∀ size, f.2.minSize = .ok size → size.IsNull)
    (h : shortestOf fields = some 0) (hsum : sum.IsNull)
    (hsize : sumMinSize sum fields = .ok size) : size.IsNull := by
  induction fields generalizing sum with
  | nil =>
    cases hsize
    exact hsum
  | cons f fields ihf =>
    obtain ⟨a, b, ha, hb, hab⟩ := shortestOf_cons.mp h
    obtain ⟨rfl, rfl⟩ := Nat.add_eq_zero_iff.mp hab
    simp only [sumMinSize, bind_eq_ok] at hsize
    obtain ⟨size', hs, sum', hadd, hrest⟩ := hsize
    exact ihf (fun g hg => ih g (List.mem_cons_of_mem f hg)) hb
      (hsum.add (ih f List.mem_cons_self ha size' hs) hadd) hrest

/-- Where a layout takes no bytes, no more are told; what is told may be no number. -/
theorem isNull_of_shortest {size : Quantity} (h : shortest? s = some 0) (hs : s.minSize = .ok size) :
    size.IsNull := by
  induction s generalizing size with
  | integer w signed => cases w <;> cases h
  | floatInteger w signed => cases h
  | fixedBytes length =>
    cases h
    cases hs
    rfl
  | array inner length ih =>
    obtain ⟨q, hq, hmul⟩ := bind_eq_ok.mp hs
    by_cases h0 : length = 0
    · subst h0
      exact Quantity.isNull_of_mul_zero hmul
    · simp only [shortest?, if_neg h0, Option.map_eq_some_iff] at h
      obtain ⟨m, hm, hprod⟩ := h
      obtain rfl : m = 0 := (Nat.mul_eq_zero.mp hprod).resolve_left h0
      exact (ih hm hq).mul_int hmul
  | record fields ih =>
    have hzero : (Quantity.int 0).IsNull := rfl
    exact isNull_of_shortestOf (fun f hf h _ => ih f hf h) h hzero hs
  | union variants ih =>
    obtain ⟨m, -, hm⟩ := Option.map_eq_some_iff.mp h
    omega
  | _ => cases h

end Schema

end LedgerWire
