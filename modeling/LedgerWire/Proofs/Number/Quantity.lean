import LedgerWire.Number.Quantity
import LedgerWire.Proofs.Result
import Mathlib.Tactic.Positivity

/-!
# Numbers of two kinds

What the size of a list depends on: a number of items has a floating-point number near to it, no items
take no bytes whatever one of them takes, and what is not too much for some bytes is not too much for
more of them.
-/

namespace LedgerWire

namespace Binary64

/-! ### Rounding -/

theorem roundHalfEven_le (num den : Nat) : roundHalfEven num den ≤ num / den + 1 := by
  unfold roundHalfEven
  dsimp only
  split_ifs <;> omega

theorem le_roundHalfEven (num den : Nat) : num / den ≤ roundHalfEven num den := by
  unfold roundHalfEven
  dsimp only
  split_ifs <;> omega

/-- The quotient by the power of two that leaves 53 bits. -/
theorem shift_lt (q : Nat) : q / 2 ^ (q.log2 - 52) < 2 ^ 53 := by
  rw [Nat.div_lt_iff_lt_mul (by positivity), ← Nat.pow_add]
  exact Nat.lt_of_lt_of_le Nat.lt_log2_self (Nat.pow_le_pow_right (by decide) (by omega))

theorem le_shift {q : Nat} (h : 52 ≤ q.log2) : 2 ^ 52 ≤ q / 2 ^ (q.log2 - 52) := by
  have hq : q ≠ 0 := by
    rintro rfl
    simp at h
  rw [Nat.le_div_iff_mul_le (by positivity), ← Nat.pow_add, Nat.add_sub_cancel' h]
  exact Nat.log2_self_le hq

theorem make_finite {negative : Bool} {significand exponent : Nat}
    (h1 : significand < 2 ^ 53) (h2 : 2 ^ 52 ≤ significand ∨ exponent = 0)
    (h3 : exponent ≤ 2045) :
    make negative significand exponent = .finite ⟨negative, significand, exponent, h1, h2, h3⟩ :=
  dif_pos ⟨h1, h2, h3⟩

/-- A quotient that is not too large is near to a finite number. -/
theorem ofRatio_finite (negative : Bool) {num den : Nat}
    (h : (num * 2 ^ 1074 / den).log2 ≤ 2096) : ∃ x, ofRatio negative num den = .finite x := by
  unfold ofRatio
  generalize num * _ = scaled at *
  dsimp only
  have hle := roundHalfEven_le scaled (den * 2 ^ ((scaled / den).log2 - 52))
  have hge := le_roundHalfEven scaled (den * 2 ^ ((scaled / den).log2 - 52))
  rw [← Nat.div_div_eq_div_mul] at hle hge
  have hlt := shift_lt (scaled / den)
  have hnormal := @le_shift (scaled / den)
  generalize roundHalfEven scaled _ = significand at *
  generalize scaled / den = q at *
  generalize q / 2 ^ (q.log2 - 52) = front at *
  by_cases hs : significand = 2 ^ 53
  · rw [if_pos hs]
    exact ⟨_, make_finite (by decide) (.inl (le_refl _)) (by omega)⟩
  · rw [if_neg hs]
    refine ⟨_, make_finite (by omega) ?_ (by omega)⟩
    by_cases h52 : 52 ≤ q.log2
    · exact .inl (Nat.le_trans (hnormal h52) hge)
    · exact .inr (by omega)

theorem ofRatio_zero (negative : Bool) (den : Nat) :
    ofRatio negative 0 den = .finite ⟨negative, 0, 0, by decide, .inr rfl, by decide⟩ := by
  have h : roundHalfEven 0 den = 0 := by
    unfold roundHalfEven
    simp
  have hlog : Nat.log2 0 - 52 = 0 := by decide
  unfold ofRatio
  simp only [Nat.zero_mul, Nat.zero_div, hlog]
  rw [Nat.pow_zero, Nat.mul_one, h]
  exact make_finite _ _ _

theorem ofInt_zero :
    ofInt (0 : Nat) = .finite ⟨false, 0, 0, by decide, .inr rfl, by decide⟩ := by
  unfold ofInt
  exact ofRatio_zero _ _

theorem zero_scaled (negative : Bool) :
    Finite.scaled ⟨negative, 0, 0, by decide, .inr rfl, by decide⟩ = 0 := Nat.zero_mul _

theorem zero_mul_finite (negative : Bool) (y : Finite) :
    (Binary64.finite ⟨negative, 0, 0, by decide, .inr rfl, by decide⟩).mul (.finite y) =
      .finite ⟨negative != y.negative, 0, 0, by decide, .inr rfl, by decide⟩ := by
  unfold mul
  dsimp only
  rw [zero_scaled, Nat.zero_mul]
  exact ofRatio_zero _ _

theorem compareInt_zero (negative : Bool) (n : Nat) :
    (Binary64.finite ⟨negative, 0, 0, by decide, .inr rfl, by decide⟩).compareInt n ≠ some .gt := by
  have h : (0 : Int) ≤ n * 2 ^ 1074 :=
    Int.mul_nonneg (Int.natCast_nonneg _) (Int.le_of_lt (Int.pow_pos (by decide)))
  rw [compareInt, Finite.toScaledInt, zero_scaled]
  simp only [Int.natCast_zero, Int.neg_zero, ite_self, ne_eq, Option.some.injEq, compare_gt_iff_gt,
    not_lt]
  exact h

theorem log2_mul_pow_le {n : Nat} (h : n < 2 ^ 32) (k : Nat) : (n * 2 ^ k).log2 ≤ 32 + k := by
  by_cases h0 : n = 0
  · simp [h0]
  · refine Nat.le_of_lt ((Nat.log2_lt (by positivity)).mpr ?_)
    rw [Nat.pow_add]
    exact Nat.mul_lt_mul_of_pos_right h (by positivity)

theorem ofInt_ofNat_finite {n : Nat} (h : n < 2 ^ 32) : ∃ x, ofInt n = .finite x := by
  refine ofRatio_finite _ ?_
  rw [Int.natAbs_natCast, Nat.div_one]
  exact Nat.le_trans (log2_mul_pow_le h 1074) (by decide)

/-! ### Nothing -/

/-- A zero, or no number. -/
def IsNull (x : Binary64) : Prop := x = .nan ∨ ∃ negative, x = zero negative

theorem zero_eq (negative : Bool) :
    zero negative = .finite ⟨negative, 0, 0, by decide, .inr rfl, by decide⟩ := make_finite _ _ _

theorem IsNull.mul {x : Binary64} (h : x.IsNull) (y : Binary64) : (x.mul y).IsNull := by
  obtain rfl | ⟨negative, rfl⟩ := h
  · exact .inl rfl
  · rw [zero_eq]
    cases y with
    | nan => exact .inl rfl
    | infinite sign => exact .inl rfl
    | finite y =>
      rw [zero_mul_finite, ← zero_eq]
      exact .inr ⟨_, rfl⟩

theorem mul_zero_isNull (x : Binary64) (negative : Bool) : (x.mul (zero negative)).IsNull := by
  rw [zero_eq]
  cases x with
  | nan => exact .inl rfl
  | infinite sign => exact .inl rfl
  | finite x =>
    refine .inr ⟨x.negative != negative, ?_⟩
    unfold mul
    dsimp only
    rw [zero_scaled, Nat.mul_zero, ofRatio_zero, zero_eq]

theorem IsNull.add {x y : Binary64} (hx : x.IsNull) (hy : y.IsNull) : (x.add y).IsNull := by
  obtain rfl | ⟨a, rfl⟩ := hx
  · exact .inl rfl
  obtain rfl | ⟨b, rfl⟩ := hy
  · rw [zero_eq]
    exact .inl rfl
  · refine .inr ⟨a && b, ?_⟩
    rw [zero_eq a, zero_eq b]
    unfold Binary64.add
    dsimp only
    rw [Finite.toScaledInt, Finite.toScaledInt, zero_scaled, zero_scaled]
    cases a <;> cases b <;> rfl

end Binary64

namespace Quantity

/-! ### Sums and products -/

@[simp] theorem add_int (m n : Int) : (int m).add (int n) = .ok (int (m + n)) := rfl

@[simp] theorem mul_int (m n : Int) : (int m).mul (int n) = .ok (int (m * n)) := rfl

theorem toFloat_int {n : Int} {x : Binary64.Finite} (h : Binary64.ofInt n = .finite x) :
    (int n).toFloat = .ok (.finite x) := by
  show inRange (Binary64.ofInt n) = _
  rw [h]
  rfl

theorem combine_float {exact : Int → Int → Int} {rounded : Binary64 → Binary64 → Binary64}
    (x : Binary64) (b : Quantity) :
    combine exact rounded (.float x) b = b.toFloat.map fun y => .float (rounded x y) := by
  simp only [combine]
  generalize b.toFloat = y
  cases y <;> rfl

theorem combine_int_float {exact : Int → Int → Int} {rounded : Binary64 → Binary64 → Binary64}
    (n : Int) (y : Binary64) :
    combine exact rounded (.int n) (.float y) =
      (int n).toFloat.map fun x => .float (rounded x y) := by
  simp only [combine]
  generalize (int n).toFloat = x
  cases x <;> rfl

theorem mul_float {n : Int} {x : Binary64.Finite} (h : Binary64.ofInt n = .finite x)
    (y : Binary64) : (int n).mul (.float y) = .ok (.float ((Binary64.finite x).mul y)) := by
  rw [mul, combine_int_float, toFloat_int h]
  rfl

/-- So many items take a number of bytes. -/
theorem count_mul {n : Nat} (h : n < 2 ^ 32) (size : Quantity) :
    ∃ least, (int n).mul size = .ok least := by
  cases size with
  | int m => exact ⟨_, mul_int n m⟩
  | float y =>
    obtain ⟨x, hx⟩ := Binary64.ofInt_ofNat_finite h
    exact ⟨_, mul_float hx y⟩

/-! ### What is too much -/

@[simp] theorem less_int (m n : Int) : (int m).less (int n) = decide (m < n) := by
  rw [Bool.eq_iff_iff, decide_eq_true_iff]
  simp only [less, compareWith, beq_iff_eq, Option.some.injEq]
  exact compare_lt_iff_lt

theorem less_float (m : Int) (x : Binary64) :
    (int m).less (.float x) = (x.compareInt m == some .gt) := by
  simp only [less, compareWith]
  cases x.compareInt m with
  | none => rfl
  | some o => cases o <;> rfl

theorem not_less_mono {m n : Int} (h : m ≤ n) {least : Quantity}
    (hm : (int m).less least = false) : (int n).less least = false := by
  cases least with
  | int k =>
    rw [less_int, decide_eq_false_iff_not] at *
    omega
  | float x =>
    rw [less_float] at *
    cases x with
    | nan => rfl
    | infinite negative => exact hm
    | finite x =>
      simp only [Binary64.compareInt, beq_eq_false_iff_ne, ne_eq, Option.some.injEq,
        compare_gt_iff_gt, not_lt] at *
      exact Int.le_trans hm (Int.mul_le_mul_of_nonneg_right h (Int.le_of_lt (Int.pow_pos (by decide))))

/-- No items take no bytes. -/
theorem zero_mul (size : Quantity) (left : Nat) :
    ∃ least, (int (0 : Nat)).mul size = .ok least ∧ (int left).less least = false := by
  cases size with
  | int m =>
    refine ⟨_, mul_int _ _, ?_⟩
    rw [less_int, decide_eq_false_iff_not]
    simp
  | float y =>
    refine ⟨_, mul_float Binary64.ofInt_zero y, ?_⟩
    rw [less_float]
    cases y with
    | nan => rfl
    | infinite negative => rfl
    | finite y =>
      rw [Binary64.zero_mul_finite, beq_eq_false_iff_ne]
      exact Binary64.compareInt_zero _ _

/-! ### No bytes at all -/

/-- Zero, in any of its spellings, or no number. -/
def IsNull : Quantity → Prop
  | .int n => n = 0
  | .float x => x.IsNull

variable {a b r : Quantity}

@[simp] theorem toFloat_zero : (int 0).toFloat = .ok (.zero false) := by
  rw [Binary64.zero_eq, ← Int.ofNat_zero]
  exact toFloat_int Binary64.ofInt_zero

theorem IsNull.mul_int (ha : a.IsNull) {n : Int} (h : a.mul (.int n) = .ok r) : r.IsNull := by
  cases a with
  | int m =>
    cases ha
    cases h
    exact Int.zero_mul n
  | float x =>
    rw [mul, combine_float, map_eq_ok] at h
    obtain ⟨y, -, rfl⟩ := h
    exact Binary64.IsNull.mul ha y

theorem isNull_of_mul_zero (h : a.mul (.int 0) = .ok r) : r.IsNull := by
  cases a with
  | int m =>
    cases h
    exact Int.mul_zero m
  | float x =>
    rw [mul, combine_float, toFloat_zero] at h
    cases h
    exact Binary64.mul_zero_isNull x false

theorem IsNull.add (ha : a.IsNull) (hb : b.IsNull) (h : a.add b = .ok r) : r.IsNull := by
  cases a with
  | int m =>
    cases ha
    cases b with
    | int n =>
      cases hb
      cases h
      rfl
    | float y =>
      rw [Quantity.add, combine_int_float, toFloat_zero] at h
      cases h
      exact Binary64.IsNull.add (.inr ⟨false, rfl⟩) hb
  | float x =>
    rw [Quantity.add, combine_float, map_eq_ok] at h
    obtain ⟨y, hy, rfl⟩ := h
    refine Binary64.IsNull.add ha ?_
    cases b with
    | int n =>
      cases hb
      cases toFloat_zero.symm.trans hy
      exact .inr ⟨false, rfl⟩
    | float y' =>
      cases hy
      exact hb

/-- It is not more than nothing. -/
theorem IsNull.not_less (h : a.IsNull) : (int 0).less a = false := by
  cases a with
  | int n =>
    cases h
    rfl
  | float x =>
    rw [less_float, beq_eq_false_iff_ne]
    obtain rfl | ⟨negative, rfl⟩ := h
    · rw [Binary64.compareInt]
      exact nofun
    · have h := Binary64.compareInt_zero negative 0
      rwa [← Binary64.zero_eq, Int.natCast_zero] at h

theorem isZero_of_pos (h : (int 0).less a) : a.isZero = false := by
  cases a with
  | int n =>
    rw [less_int, decide_eq_true_iff] at h
    rw [isZero, beq_eq_false_iff_ne]
    simpa [compareWith] using h.ne'
  | float x =>
    rw [less_float, beq_iff_eq] at h
    rw [isZero, compareWith, h]
    rfl

/-! ### Numbers of bytes -/

/-- The number is `n`, of whichever kind it is. -/
def Equals (a : Quantity) (n : Nat) : Prop := a.compareWith (.int n) = some .eq

/-- The number is no more than `n`. -/
def IsAtMost (a : Quantity) (n : Nat) : Prop :=
  a.compareWith (.int n) = some .lt ∨ a.compareWith (.int n) = some .eq

theorem equals_int (n : Nat) : (int n).Equals n := by
  simp [Equals, compareWith]

theorem compare_le_iff {x y : Int} : some (compare x y) = some .lt ∨ some (compare x y) = some .eq ↔
    x ≤ y := by
  rw [Option.some.injEq, Option.some.injEq, compare_lt_iff_lt, compare_eq_iff_eq, le_iff_lt_or_eq]

/-- A number is at most what its equal is at most. -/
theorem isAtMost_iff {m n : Nat} (h : a.Equals m) : a.IsAtMost n ↔ m ≤ n := by
  cases a with
  | int k =>
    simp only [Equals, compareWith, Option.some.injEq, compare_eq_iff_eq] at h
    subst h
    exact compare_le_iff.trans Int.ofNat_le
  | float x =>
    cases x with
    | nan => cases h
    | infinite negative => cases negative <;> cases h
    | finite x =>
      have hpos : (0 : Int) < 2 ^ 1074 := Int.pow_pos (by decide)
      simp only [Equals, compareWith, Binary64.compareInt, Option.some.injEq, compare_eq_iff_eq] at h
      simp only [IsAtMost, compareWith, Binary64.compareInt]
      rw [compare_le_iff, h, Int.mul_le_mul_right hpos, Int.ofNat_le]

end Quantity

end LedgerWire
