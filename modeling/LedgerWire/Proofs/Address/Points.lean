import LedgerWire.Proofs.Address.Prime
import LedgerWire.Proofs.Address.Search
import Mathlib.NumberTheory.LegendreSymbol.Basic
import Mathlib.Tactic.FieldSimp
import Mathlib.Tactic.LinearCombination

/-!
# Which byte strings encode points

The test of thirty-two bytes computes an inverse and Euler's criterion. In the field of the residues
modulo `p` it says that some `x` belongs to the `y` of the bytes. The quotient that it tests exists for
every `y`: `-1` is a square modulo `p` and `d` is none.
-/

namespace LedgerWire

namespace Curve

abbrev Residue : Type := ZMod p

/-- The equation of the curve. -/
def OnCurve (x y : Residue) : Prop :=
  -x ^ 2 + y ^ 2 = 1 + -121665 / 121666 * x ^ 2 * y ^ 2

/-- The thirty-two bytes for a point: its `y`, and the sign of its `x` in the top bit. -/
def encodePoint (x y : Residue) : Bytes := Bytes.ofNatLE 32 (y.val + x.val % 2 * 2 ^ 255)

/-! ### The constants -/

theorem natCast_ne_zero (n : Nat) (h : n % p ≠ 0) : (n : Residue) ≠ 0 := by
  rwa [Ne, ZMod.natCast_eq_zero_iff, Nat.dvd_iff_mod_eq_zero]

theorem cast_d : (d : Residue) = -121665 / 121666 := by
  have hmod : ((121666 * d + 121665 : Nat) : Residue) = 0 :=
    (ZMod.natCast_eq_zero_iff _ _).mpr (Nat.dvd_of_mod_eq_zero mul_d_add_mod)
  have hne : (121666 : Residue) ≠ 0 := by exact_mod_cast natCast_ne_zero 121666 (by decide)
  push_cast at hmod
  rw [eq_div_iff hne]
  linear_combination hmod

theorem powMod_d : powMod d (p / 2) p ≠ 1 := by decide +kernel

/-- Euler's criterion fails for `d`. -/
theorem not_isSquare_d : ¬ IsSquare (d : Residue) := by
  rw [ZMod.euler_criterion p (natCast_ne_zero d (by decide)), ← powMod_eq_one_iff (by decide)]
  exact powMod_d

/-- `p` is one more than a multiple of four. -/
theorem isSquare_neg_one : IsSquare (-1 : Residue) :=
  ZMod.exists_sq_eq_neg_one_iff.mpr (by decide)

/-- Squares are `d` times squares only at zero. -/
theorem eq_zero_of_sq_eq {s t : Residue} (h : s ^ 2 = d * t ^ 2) : t = 0 := by
  by_contra ht
  refine not_isSquare_d ⟨s / t, ?_⟩
  field_simp
  linear_combination -h

theorem denominator_ne_zero (y : Residue) : (d : Residue) * y ^ 2 + 1 ≠ 0 := by
  intro h
  obtain ⟨i, hi⟩ := isSquare_neg_one
  have hy : y = 0 := eq_zero_of_sq_eq (s := i) (by linear_combination -hi - h)
  rw [hy] at h
  simp at h

/-! ### The test in the field -/

theorem cast_inverse (n : Nat) : (inverse n : Residue) = (n : Residue)⁻¹ := by
  rw [inverse, cast_powMod]
  by_cases hn : (n : Residue) = 0
  · rw [hn, inv_zero, zero_pow (by decide)]
  · refine eq_inv_of_mul_eq_one_left ?_
    rw [← pow_succ]
    exact ZMod.pow_card_sub_one_eq_one hn

theorem isSquare_iff {n : Nat} (hn : n < p) : isSquare n = true ↔ IsSquare (n : Residue) := by
  unfold isSquare
  rw [Bool.or_eq_true, beq_iff_eq, beq_iff_eq]
  by_cases hzero : n = 0
  · subst hzero
    simp
  · have hne : (n : Residue) ≠ 0 := natCast_ne_zero n (by rwa [Nat.mod_eq_of_lt hn])
    rw [ZMod.euler_criterion p hne, ← powMod_eq_one_iff (by decide)]
    simp only [hzero, false_or]
    rfl

theorem cast_xSquared (y : Nat) :
    (xSquared y : Residue) = ((y : Residue) ^ 2 - 1) / (d * (y : Residue) ^ 2 + 1) := by
  have hp : ((p - 1 : Nat) : Residue) = -1 := by
    rw [Nat.cast_sub (by decide), ZMod.natCast_self, Nat.cast_one, zero_sub]
  unfold xSquared
  simp only [ZMod.natCast_mod, Nat.cast_mul, Nat.cast_add, cast_inverse, hp, Nat.cast_one]
  ring

theorem xSquared_lt (y : Nat) : xSquared y < p := Nat.mod_lt _ (by decide)

/-- The curve's equation, solved for `x²`. -/
theorem onCurve_iff {x y : Residue} :
    OnCurve x y ↔ (y ^ 2 - 1) / (d * y ^ 2 + 1) = x * x := by
  unfold OnCurve
  rw [← cast_d, div_eq_iff (denominator_ne_zero y)]
  constructor <;> intro h <;> linear_combination h

theorem isOnCurve_iff (point : Bytes) :
    isOnCurve point = true ↔ ∃ x, OnCurve x (yOf point : Residue) := by
  rw [isOnCurve, isSquare_iff (xSquared_lt _), cast_xSquared]
  exact exists_congr fun x => onCurve_iff.symm

/-! ### Encoded points -/

@[simp] theorem yOf_encodePoint (x y : Residue) : yOf (encodePoint x y) = y.val := by
  have hy : y.val < 2 ^ 255 := y.val_lt.trans (by decide)
  have hx : x.val % 2 < 2 := Nat.mod_lt _ (by decide)
  unfold yOf encodePoint
  rw [Bytes.toNatLE_ofNatLE]
  omega

theorem isOnCurve_encodePoint {x y : Residue} (h : OnCurve x y) :
    isOnCurve (encodePoint x y) = true := by
  refine (isOnCurve_iff _).mpr ⟨x, ?_⟩
  rwa [yOf_encodePoint, ZMod.natCast_zmod_val]

theorem checkPoint_bytes {point : Bytes} (h : point.length = pointSize) :
    checkPoint (.bytes point) = .ok (isOnCurve point) := by
  have hlen : (point.map fun b => Value.int b.toNat).length = pointSize := by
    rwa [List.length_map]
  show (if (point.map fun b => Value.int b.toNat).length ≠ pointSize then _ else _) = _
  rw [if_neg (not_not.mpr hlen)]
  rfl

@[simp] theorem length_encodePoint (x y : Residue) : (encodePoint x y).length = pointSize :=
  Bytes.length_ofNatLE _ _

theorem onCurve_ledger : Address.ledger.onCurve = isOnCurve := by rw [Address.ledger]

/-- What encodes a point is no derived address. -/
theorem ne_address_of_isOnCurve {bs : Bytes} (h : isOnCurve bs = true) (seeds program : Value) :
    Address.ledger.createFor seeds program ≠ .ok bs ∧
      ∀ bump, Address.ledger.findFor seeds program ≠ .ok (bs, bump) := by
  rw [← onCurve_ledger] at h
  constructor
  · intro hok
    rw [Address.Scheme.off_curve_of_createFor hok] at h
    cases h
  · intro bump hok
    rw [Address.Scheme.off_curve_of_findFor hok] at h
    cases h

/-- Thirty-two bytes pass the test just if there is a point whose `y` is the number of their low 255
bits, reduced or not. The constant is `-121665 / 121666`, the quotient that is tested always exists,
and the bytes for a point pass, so that they are not the address of any program. -/
theorem isOnCurve_spec :
    (∀ point : Bytes, point.length = 32 → ∃ answer, checkPoint (.bytes point) = .ok answer ∧
      (answer = true ↔ ∃ x, OnCurve x ((point.toNatLE % 2 ^ 255 : Nat) : Residue))) ∧
    (d : Residue) = -121665 / 121666 ∧
    (∀ y : Residue, (d : Residue) * y ^ 2 + 1 ≠ 0) ∧
    ∀ x y, OnCurve x y →
      (encodePoint x y).length = 32 ∧
      checkPoint (.bytes (encodePoint x y)) = .ok true ∧
      ∀ seeds program, Address.ledger.createFor seeds program ≠ .ok (encodePoint x y) ∧
        ∀ bump, Address.ledger.findFor seeds program ≠ .ok (encodePoint x y, bump) := by
  refine ⟨fun point hlen => ⟨isOnCurve point, checkPoint_bytes hlen, isOnCurve_iff point⟩, cast_d,
    denominator_ne_zero, fun x y h => ?_⟩
  have hon := isOnCurve_encodePoint h
  refine ⟨length_encodePoint x y, ?_, ne_address_of_isOnCurve hon⟩
  rw [checkPoint_bytes (length_encodePoint x y), hon]

theorem onCurve_neutral : OnCurve 0 1 := by simp [OnCurve]

/-- The bytes for the neutral point pass. -/
theorem isOnCurve_spec_neutral :
    (encodePoint 0 1).length = 32 ∧ OnCurve 0 1 ∧
      checkPoint (.bytes (encodePoint 0 1)) = .ok true ∧
      Address.ledger.createFor (.list []) (.bytes []) ≠ .ok (encodePoint 0 1) :=
  have ⟨hlen, hpass, hne⟩ := isOnCurve_spec.2.2.2 0 1 onCurve_neutral
  ⟨hlen, onCurve_neutral, hpass, (hne _ _).1⟩

end Curve

end LedgerWire
