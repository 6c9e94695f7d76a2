import LedgerWire.Number.Shortest
import LedgerWire.Proofs.Number.Quantity

/-!
# Digits that read back

The value nearest to a ratio depends on the ratio alone, and so does the value of decimal digits: zeros
at their end and their exponent make up for each other. Whatever digits the search for the shortest
ends with, they read back as the number they were made from.
-/

namespace LedgerWire

namespace Binary64

/-! ### Ratios and decimal digits -/

theorem roundHalfEven_mul {k : Nat} (hk : 0 < k) (num den : Nat) :
    roundHalfEven (num * k) (den * k) = roundHalfEven num den := by
  have hlt (a b : Nat) : a * k < b * k ↔ a < b := Nat.mul_lt_mul_right hk
  simp only [roundHalfEven, Nat.mul_div_mul_right _ _ hk, Nat.mul_mod_mul_right, ← Nat.mul_assoc, hlt]

theorem roundHalfEven_exact (n : Nat) {den : Nat} (h : 0 < den) : roundHalfEven (n * den) den = n := by
  have hle := le_roundHalfEven (n * den) den
  simp [roundHalfEven, Nat.mul_div_cancel _ h, h]

theorem ofRatio_mul {k : Nat} (hk : 0 < k) (negative : Bool) (num den : Nat) :
    ofRatio negative (num * k) (den * k) = ofRatio negative num den := by
  have hscaled : num * k * 2 ^ 1074 = num * 2 ^ 1074 * k := Nat.mul_right_comm _ _ _
  have hden (e : Nat) : den * k * 2 ^ e = den * 2 ^ e * k := Nat.mul_right_comm _ _ _
  simp only [ofRatio, hscaled, hden, roundHalfEven_mul hk, Nat.mul_div_mul_right _ _ hk]

theorem length_toDigits_mul_pow {d : Nat} (hd : 0 < d) (k : Nat) :
    (Nat.toDigits 10 (d * 10 ^ k)).length = (Nat.toDigits 10 d).length + k := by
  induction k with
  | zero => rw [Nat.pow_zero, Nat.mul_one, Nat.add_zero]
  | succ k ih =>
    have hpos : 0 < d * 10 ^ k := by positivity
    have hsnoc := Nat.toDigits_append_toDigits (b := 10) (d := 0) (by decide) hpos (by decide)
    rw [Nat.pow_succ, ← Nat.mul_assoc, Nat.mul_comm _ 10, ← Nat.add_zero (10 * _), ← hsnoc,
      List.length_append, ih, Nat.add_assoc]
    rfl

/-- A zero at the end of the digits counts for one in the exponent. -/
theorem ofDecimal_mul_pow (negative : Bool) (d k : Nat) (e : Int) :
    ofDecimal negative (d * 10 ^ k) e = ofDecimal negative d (e + k) := by
  rcases Nat.eq_zero_or_pos d with rfl | hd
  · simp [ofDecimal]
  have hne : d * 10 ^ k ≠ 0 := by positivity
  have hmagnitude : ((Nat.toDigits 10 (d * 10 ^ k)).length : Int) + e =
      (Nat.toDigits 10 d).length + (e + k) := by
    rw [length_toDigits_mul_pow hd]
    omega
  have hratio : (if 0 ≤ e then ofRatio negative (d * 10 ^ k * 10 ^ e.toNat) 1
        else ofRatio negative (d * 10 ^ k) (10 ^ (-e).toNat)) =
      if 0 ≤ e + k then ofRatio negative (d * 10 ^ (e + k).toNat) 1
        else ofRatio negative d (10 ^ (-(e + k)).toNat) := by
    by_cases he : 0 ≤ e
    · have hsum : (e + k).toNat = k + e.toNat := by omega
      rw [if_pos he, if_pos (by omega), hsum, Nat.pow_add, Nat.mul_assoc]
    · rw [if_neg he]
      by_cases hek : 0 ≤ e + k
      · -- the zeros reach beyond the point
        have hsum : k = (e + k).toNat + (-e).toNat := by omega
        rw [if_pos hek, ← ofRatio_mul (k := 10 ^ (-e).toNat) (by positivity) negative _ 1,
          Nat.one_mul, Nat.mul_assoc, ← Nat.pow_add, ← hsum]
      · have hsum : (-e).toNat = (-(e + k)).toNat + k := by omega
        rw [if_neg hek, hsum, Nat.pow_add, ofRatio_mul (by positivity)]
  simp only [ofDecimal, hmagnitude, hne, hratio, Nat.pos_iff_ne_zero.mp hd]

/-! ### All digits of a number -/

theorem log2_scaled {x : Finite} (h : 2 ^ 52 ≤ x.significand) : x.scaled.log2 = 52 + x.exponent := by
  have hlt := x.significand_lt
  have hpos : 0 < x.significand := by omega
  refine (Nat.log2_eq_iff (by rw [Finite.scaled]; positivity)).mpr ⟨?_, ?_⟩
  · rw [Nat.pow_add]
    exact Nat.mul_le_mul_right _ h
  · rw [show 52 + x.exponent + 1 = 53 + x.exponent by omega, Nat.pow_add]
    exact Nat.mul_lt_mul_of_pos_right hlt (by positivity)

theorem log2_scaled_sub (x : Finite) : x.scaled.log2 - 52 = x.exponent := by
  rcases x.normal with h | h
  · rw [log2_scaled h]
    omega
  · have hscaled : x.scaled = x.significand := by rw [Finite.scaled, h, Nat.pow_zero, Nat.mul_one]
    rcases Nat.eq_zero_or_pos x.significand with hz | hpos
    · rw [hscaled, hz, h]
      rfl
    · have hlt := (Nat.log2_lt (Nat.pos_iff_ne_zero.mp hpos)).mpr x.significand_lt
      rw [hscaled, h]
      omega

theorem ofRatio_scaled (x : Finite) : ofRatio x.negative x.scaled (2 ^ 1074) = .finite x := by
  have hunit := Nat.two_pow_pos 1074
  unfold ofRatio
  generalize 2 ^ 1074 = unit at hunit ⊢
  have hround : roundHalfEven (x.scaled * unit) (unit * 2 ^ x.exponent) = x.significand := by
    rw [Nat.mul_comm unit, roundHalfEven_mul hunit]
    exact roundHalfEven_exact _ (by positivity)
  simp only [Nat.mul_div_cancel _ hunit, log2_scaled_sub, hround]
  rw [if_neg (Nat.ne_of_lt x.significand_lt)]
  exact make_finite x.significand_lt x.normal x.exponent_le

theorem scaled_lt {x : Finite} {top : Nat} (h : x.exponent ≤ top) :
    x.scaled < 2 ^ 53 * 2 ^ top :=
  Nat.mul_lt_mul_of_lt_of_le x.significand_lt (Nat.pow_le_pow_right (by decide) h)
    (Nat.two_pow_pos _)

theorem scaled_pos {x : Finite} (hx : x.significand ≠ 0) : 0 < x.scaled :=
  Nat.mul_pos (Nat.pos_of_ne_zero hx) (Nat.two_pow_pos _)

theorem ofRatio_mul_pow_five (negative : Bool) (num k : Nat) :
    ofRatio negative (num * 5 ^ k) (10 ^ k) = ofRatio negative num (2 ^ k) := by
  rw [show (10 : Nat) = 2 * 5 from rfl, Nat.mul_pow, ofRatio_mul (by positivity)]

theorem lt_length_toDigits {n k : Nat} (hn : 0 < n) (h : 10 ^ 744 ≤ 5 ^ k) :
    744 < (Nat.toDigits 10 (n * 5 ^ k)).length := by
  rw [← Nat.not_le, Nat.length_toDigits_le_iff (by decide) (by decide), Nat.not_lt]
  exact Nat.le_trans h (Nat.le_mul_of_pos_left _ hn)

theorem length_toDigits_le {n top k : Nat} (hn : n < top) (h : top * 5 ^ k ≤ 10 ^ 1384) :
    (Nat.toDigits 10 (n * 5 ^ k)).length ≤ 1384 := by
  rw [Nat.length_toDigits_le_iff (by decide) (by decide)]
  exact Nat.lt_of_lt_of_le (Nat.mul_lt_mul_of_pos_right hn (Nat.pow_pos (by decide))) h

/-- All digits of a number read back as it. -/
theorem ofDecimal_allDigits {x : Finite} (hx : x.significand ≠ 0) :
    ofDecimal x.negative x.allDigits.digits x.allDigits.exponent = .finite x := by
  have hlow := lt_length_toDigits (k := 1074) (scaled_pos hx) (by decide +kernel)
  have hhigh := length_toDigits_le (k := 1074) (scaled_lt x.exponent_le) (by decide +kernel)
  have hratio := (ofRatio_mul_pow_five x.negative x.scaled 1074).trans (ofRatio_scaled x)
  show ofDecimal x.negative (x.scaled * 5 ^ 1074) (-1074) = _
  generalize x.scaled * 5 ^ 1074 = digits at *
  have hne : digits ≠ 0 := by
    rintro rfl
    exact absurd hlow (by decide)
  have h1 : ¬ (digits = 0 || ((Nat.toDigits 10 digits).length + (-1074) : Int) < -330) = true := by
    rw [Bool.or_eq_true, decide_eq_true_iff, decide_eq_true_iff]
    omega
  unfold ofDecimal
  rw [if_neg h1, if_neg (by omega), if_neg (by decide), show (-(-1074) : Int).toNat = 1074 from rfl,
    hratio]

/-! ### The shortest digits -/

variable {x : Finite} {d : Digits}

/-- The digits spell the number `x`, and not as a zero. -/
def Digits.Spell (d : Digits) (x : Finite) : Prop :=
  ofDecimal x.negative d.digits d.exponent = .finite x ∧ d.digits ≠ 0

theorem ofDecimal_zero (negative : Bool) (e : Int) : ofDecimal negative 0 e = zero negative := by
  simp [ofDecimal]

theorem Digits.spell_of_ofDecimal (hx : x.significand ≠ 0)
    (h : ofDecimal x.negative d.digits d.exponent = .finite x) : d.Spell x := by
  refine ⟨h, fun hd => hx ?_⟩
  rw [hd, ofDecimal_zero, zero, make_finite (by decide) (.inr rfl) (by decide)] at h
  exact (congrArg Finite.significand (finite.inj h)).symm

theorem Digits.spell_trimmed (h : d.Spell x) (fuel : Nat) : (d.trimmed fuel).Spell x := by
  induction fuel generalizing d with
  | zero => exact h
  | succ fuel ih =>
    unfold trimmed
    split
    · next hd =>
      have hdigits : d.digits = d.digits / 10 * 10 ^ 1 := by omega
      refine ih ⟨?_, show d.digits / 10 ≠ 0 by omega⟩
      rw [← h.1, hdigits, ofDecimal_mul_pow]
      simp
    · exact h

/-- Where both neighbours on a grid read back, the nearer one is either of them. -/
theorem roundHalfEven_eq_or (num den : Nat) :
    roundHalfEven num den = num / den ∨ roundHalfEven num den = num / den + 1 := by
  have h1 := le_roundHalfEven num den
  have h2 := roundHalfEven_le num den
  omega

theorem spell_of_onGrid (hx : x.significand ≠ 0) {e : Int} (h : x.onGrid? e = some d) :
    d.Spell x := by
  refine Digits.spell_of_ofDecimal hx ?_
  unfold Finite.onGrid? at h
  dsimp only at h
  split at h
  · next h1 h2 =>
    obtain rfl := Option.some.inj h
    rcases roundHalfEven_eq_or _ _ with hr | hr
    · rw [hr]
      exact eq_of_beq h1
    · rw [hr]
      exact eq_of_beq h2
  · next h1 _ =>
    obtain rfl := Option.some.inj h
    exact eq_of_beq h1
  · next _ h2 =>
    obtain rfl := Option.some.inj h
    exact eq_of_beq h2
  · cases h

theorem spell_search (hx : x.significand ≠ 0) (magnitude : Int) (left count : Nat) :
    (x.search magnitude left count).Spell x := by
  induction left generalizing count with
  | zero => exact Digits.spell_of_ofDecimal hx (ofDecimal_allDigits hx)
  | succ left ih =>
    unfold Finite.search
    split
    · next h => exact spell_of_onGrid hx h
    · exact ih (count + 1)

/-- The digits that a number is written with read back as it. -/
theorem spell_shortest (hx : x.significand ≠ 0) : x.shortest.Spell x := by
  rw [Finite.shortest, if_neg hx]
  exact Digits.spell_trimmed (spell_search hx _ _ _) _

/-- A number without a significand is the zero of its sign. -/
theorem zero_of_significand (hx : x.significand = 0) : zero x.negative = .finite x := by
  have he : x.exponent = 0 := x.normal.resolve_left (by omega)
  rw [zero, make_finite (by decide) (.inr rfl) (by decide)]
  cases x
  simp_all

end Binary64

end LedgerWire
