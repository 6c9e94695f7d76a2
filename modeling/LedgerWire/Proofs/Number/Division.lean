import LedgerWire.Proofs.Number.Rounding
import Mathlib.Data.Nat.Cast.Field

/-!
# Quotients are rounded once

A quotient is computed to one digit more than the context holds, and a remainder moves it off a tie.
`exists_finish_div` says that what is finished then rounds as the exact quotient does: however the digits
came about, the result is the exact quotient, rounded once. Where no digit is lost below the least
exponent, rounding changes a number by a small part of it.
-/

namespace LedgerWire

namespace Decimal

open Binary64 (roundHalfEven)

variable {ctx : Context} {x y : Decimal} {c d n k : Nat}

/-! ### Moving off a tie -/

/-- A number that is no tie, wherever its digits are cut. -/
def offTie (q : Nat) : Nat := if q % 5 = 0 then q + 1 else q

theorem offTie_mod (q : Nat) : offTie q % 5 ≠ 0 := by
  unfold offTie
  split_ifs <;> omega

theorem le_offTie (q : Nat) : q ≤ offTie q := by
  unfold offTie
  split_ifs <;> omega

/-- No power of ten lies between a number and the one that is off a tie. -/
theorem offTie_lt_pow {q : Nat} (h : q < 10 ^ (k + 1)) : offTie q < 10 ^ (k + 1) := by
  rw [Nat.pow_succ] at *
  unfold offTie
  split_ifs <;> omega

/-- What is off a tie has the same first digits, and lies on the same side of their middle. -/
theorem offTie_cut (q j : Nat) : offTie q / (10 * j) = q / (10 * j) ∧
    (offTie q % (10 * j) < 5 * j ↔ q % (10 * j) < 5 * j) ∧ offTie q % (10 * j) ≠ 5 * j := by
  rcases Nat.eq_zero_or_pos j with rfl | hj
  · have := offTie_mod q
    simp only [Nat.mul_zero, Nat.div_zero, Nat.mod_zero, Nat.not_lt_zero, true_and]
    omega
  have hsplit := Nat.div_add_mod q (10 * j)
  have hmod := Nat.mod_lt q (show 0 < 10 * j by omega)
  have hfive : q % 5 = q % (10 * j) % 5 := by
    rw [Nat.mod_mod_of_dvd q ⟨2 * j, by omega⟩]
  by_cases hq : q % 5 = 0
  · have hoff : offTie q = q + 1 := if_pos hq
    have hcut : (q + 1) / (10 * j) = q / (10 * j) ∧ (q + 1) % (10 * j) = q % (10 * j) + 1 := by
      rw [Nat.div_mod_unique (by omega)]
      omega
    rw [hoff, hcut.1, hcut.2]
    omega
  · have hoff : offTie q = q := if_neg hq
    rw [hoff]
    omega

/-- A quotient with a remainder is rounded as its whole part, moved off a tie. -/
theorem roundHalfEven_offTie (num : Nat) {den : Nat} (hden : 0 < den) (hrest : num % den ≠ 0)
    (hk : 0 < k) : roundHalfEven num (den * 10 ^ k) = roundHalfEven (offTie (num / den)) (10 ^ k) := by
  obtain ⟨i, rfl⟩ : ∃ i, k = i + 1 := ⟨k - 1, by omega⟩
  rw [Nat.pow_succ, Nat.mul_comm (10 ^ i) 10]
  generalize 10 ^ i = j
  obtain ⟨hdiv, hside, htie⟩ := offTie_cut (num / den) j
  have hlt := Nat.mod_lt num hden
  unfold roundHalfEven
  rw [← Nat.div_div_eq_div_mul, Nat.mod_mul, hdiv]
  generalize num / den % (10 * j) = rest at hside ⊢
  -- the remainder is less than one unit of the whole part
  by_cases hlow : rest < 5 * j
  · have hunits : den * (rest + 1) ≤ den * (5 * j) := Nat.mul_le_mul_left den hlow
    rw [if_pos (by linarith), if_pos (by have := hside.mpr hlow; omega)]
  · have hunits : den * (5 * j) ≤ den * rest := Nat.mul_le_mul_left den (Nat.not_lt.mp hlow)
    have hpos : 0 < num % den := Nat.pos_of_ne_zero hrest
    rw [if_neg (by linarith), if_pos (by linarith), if_neg (by omega), if_pos (by omega)]

/-! ### The digits of a quotient -/

/-- The number of places by which the dividend is moved up. -/
def places (ctx : Context) (x y : Decimal) : Int :=
  digitCount y.coefficient - digitCount x.coefficient + (ctx.digits + 1 : Nat)

/-- The coefficients that are divided. -/
def dividend (ctx : Context) (x y : Decimal) : Nat :=
  if 0 ≤ places ctx x y then x.coefficient * 10 ^ (places ctx x y).toNat else x.coefficient

def divisor (ctx : Context) (x y : Decimal) : Nat :=
  if 0 ≤ places ctx x y then y.coefficient else y.coefficient * 10 ^ (-places ctx x y).toNat

/-- The place of the last digit that is computed. -/
def lastPlace (ctx : Context) (x y : Decimal) : Int := x.exponent - y.exponent - places ctx x y

theorem divisor_pos (hy : y.coefficient ≠ 0) : 0 < divisor ctx x y := by
  unfold divisor
  split_ifs
  · exact Nat.pos_of_ne_zero hy
  · exact Nat.mul_pos (Nat.pos_of_ne_zero hy) (Nat.pow_pos (by decide))

theorem dividend_div_divisor (ctx : Context) (x : Decimal) (hy : y.coefficient ≠ 0) :
    (dividend ctx x y : ℚ) / divisor ctx x y =
      x.coefficient / y.coefficient * 10 ^ places ctx x y := by
  have hcoefficient : (y.coefficient : ℚ) ≠ 0 := by exact_mod_cast hy
  unfold dividend divisor
  split_ifs with h
  · have hnat : ((places ctx x y).toNat : ℤ) = places ctx x y := Int.toNat_of_nonneg h
    rw [Nat.cast_mul, Nat.cast_pow, Nat.cast_ofNat, ← zpow_natCast, hnat]
    ring
  · have hnat : ((-places ctx x y).toNat : ℤ) = -places ctx x y := Int.toNat_of_nonneg (by omega)
    rw [Nat.cast_mul, Nat.cast_pow, Nat.cast_ofNat, ← zpow_natCast, hnat, zpow_neg, ← div_div,
      div_inv_eq_mul]

/-- The quotient of the coefficients is the exact quotient, moved to the last place. -/
theorem magnitude_div (ctx : Context) (x : Decimal) (hy : y.coefficient ≠ 0) :
    x.magnitude / y.magnitude =
      (dividend ctx x y : ℚ) / divisor ctx x y * 10 ^ lastPlace ctx x y := by
  have hcoefficient : (y.coefficient : ℚ) ≠ 0 := by exact_mod_cast hy
  have hunit : (10 : ℚ) ^ places ctx x y ≠ 0 := by positivity
  rw [dividend_div_divisor ctx x hy, lastPlace, zpow_sub₀ (by norm_num), zpow_sub₀ (by norm_num),
    magnitude, magnitude]
  field_simp

/-- More digits are computed than the context holds. -/
theorem pow_digits_le (ctx : Context) (hx : x.coefficient ≠ 0) (hy : y.coefficient ≠ 0) :
    10 ^ ctx.digits ≤ dividend ctx x y / divisor ctx x y := by
  rw [Nat.le_div_iff_mul_le (divisor_pos hy)]
  have hlow := pow_le_of_digitCount hx
  have hhigh := (lt_pow_digitCount y.coefficient).le
  have hdigits := digitCount_pos x.coefficient
  unfold dividend divisor
  split_ifs with h
  · rw [places] at *
    calc 10 ^ ctx.digits * y.coefficient
        ≤ 10 ^ ctx.digits * 10 ^ digitCount y.coefficient := Nat.mul_le_mul_left _ hhigh
      _ = 10 ^ (digitCount x.coefficient - 1) * 10 ^ (places ctx x y).toNat := by
        rw [← Nat.pow_add, ← Nat.pow_add, places]
        congr 1
        omega
      _ ≤ x.coefficient * 10 ^ (places ctx x y).toNat := Nat.mul_le_mul_right _ hlow
  · calc 10 ^ ctx.digits * (y.coefficient * 10 ^ (-places ctx x y).toNat)
        ≤ 10 ^ ctx.digits * (10 ^ digitCount y.coefficient * 10 ^ (-places ctx x y).toNat) :=
          Nat.mul_le_mul_left _ (Nat.mul_le_mul_right _ hhigh)
      _ = 10 ^ (digitCount x.coefficient - 1) := by
        rw [← Nat.pow_add, ← Nat.pow_add]
        rw [places] at *
        congr 1
        omega
      _ ≤ x.coefficient := hlow

theorem magnitude_trimTo (ideal : Int) (fuel c : Nat) (e : Int) :
    ((trimTo ideal fuel c e).1 : ℚ) * 10 ^ (trimTo ideal fuel c e).2 = c * 10 ^ e := by
  induction fuel generalizing c e with
  | zero => rfl
  | succ fuel ih =>
    unfold trimTo
    split_ifs with h
    · rw [ih, zpow_add_one₀ (by norm_num)]
      have hten : (c : ℚ) = (c / 10 : ℕ) * 10 := by
        exact_mod_cast (Nat.div_mul_cancel (Nat.dvd_of_mod_eq_zero h.2)).symm
      rw [hten]
      ring
    · rfl

/-! ### The rounded quotient -/

/-- Numbers with the same power of ten below them are cut at the same place. -/
theorem place_eq {v w : ℚ} {e : ℤ} (hv : 10 ^ e ≤ v ∧ v < 10 ^ (e + 1))
    (hw : 10 ^ e ≤ w ∧ w < 10 ^ (e + 1)) : ctx.place v = ctx.place w := by
  have hpos : (0 : ℚ) < 10 ^ e := by positivity
  rw [Context.place, Context.place, abs_of_pos (hpos.trans_le hv.1), abs_of_pos (hpos.trans_le hw.1),
    log_eq hv.1 hv.2, log_eq hw.1 hw.2]

/-- A quotient with a remainder, moved off a tie, rounds as the exact quotient. -/
theorem rounded_offTie {num den : Nat} (hden : 0 < den) (hrest : num % den ≠ 0)
    (hlarge : 10 ^ ctx.digits ≤ num / den) (e : ℤ) :
    ctx.rounded (offTie (num / den) * 10 ^ e) = ctx.rounded ((num : ℚ) / den * 10 ^ e) := by
  generalize hq : num / den = q at hlarge
  have hunit : (0 : ℚ) < 10 ^ e := by positivity
  have hpos : (0 : ℚ) < den := by exact_mod_cast hden
  have hne : q ≠ 0 := Nat.pos_iff_ne_zero.mp (Nat.lt_of_lt_of_le (Nat.pow_pos (by decide)) hlarge)
  obtain ⟨n, hn⟩ : ∃ n, digitCount q = n + 1 := ⟨digitCount q - 1, by have := digitCount_pos q; omega⟩
  have hlow : 10 ^ n ≤ q := by
    have := pow_le_of_digitCount hne
    rwa [hn] at this
  have hhigh : q < 10 ^ (n + 1) := hn ▸ lt_pow_digitCount q
  have hdigits : ctx.digits ≤ n := by
    have := (Nat.pow_lt_pow_iff_right (by decide)).mp (hlarge.trans_lt hhigh)
    omega
  -- both numbers lie between the same two powers of ten
  have hscale (v : ℚ) (hv : 10 ^ n ≤ v ∧ v < 10 ^ (n + 1)) :
      (10 : ℚ) ^ (n + e) ≤ v * 10 ^ e ∧ v * 10 ^ e < 10 ^ (n + e + 1) := by
    rw [show (n : ℤ) + e + 1 = (n + 1 : ℕ) + e by omega, zpow_add₀ (by norm_num),
      zpow_add₀ (by norm_num), zpow_natCast, zpow_natCast]
    exact ⟨mul_le_mul_of_nonneg_right hv.1 hunit.le, mul_lt_mul_of_pos_right hv.2 hunit⟩
  have hexact := hscale ((num : ℚ) / den) (by
    rw [le_div_iff₀ hpos, div_lt_iff₀ hpos]
    constructor
    · exact_mod_cast (Nat.le_div_iff_mul_le hden).mp (hq ▸ hlow)
    · exact_mod_cast (Nat.div_lt_iff_lt_mul hden).mp (hq ▸ hhigh))
  have hmoved := hscale (offTie q : ℚ) ⟨by exact_mod_cast hlow.trans (le_offTie q),
    by exact_mod_cast offTie_lt_pow hhigh⟩
  obtain ⟨k, hk, hplace⟩ : ∃ k : ℕ, 0 < k ∧ ctx.place ((num : ℚ) / den * 10 ^ e) = k + e := by
    have hlog := log_eq hexact.1 hexact.2
    have habs := abs_of_pos (lt_of_lt_of_le (by positivity) hexact.1)
    refine ⟨(ctx.place ((num : ℚ) / den * 10 ^ e) - e).toNat, ?_, ?_⟩ <;>
    · rw [Context.place, habs, hlog]
      omega
  have hten : ((10 ^ k : ℕ) : ℚ) = 10 ^ (k : ℤ) := by rw [Nat.cast_pow, Nat.cast_ofNat, zpow_natCast]
  have hcut (v : ℚ) : v * 10 ^ e / 10 ^ ((k : ℤ) + e) = v / (10 ^ k : ℕ) := by
    rw [zpow_add₀ (by norm_num), mul_div_mul_right _ _ hunit.ne', hten]
  rw [Context.rounded, Context.rounded, place_eq hmoved hexact, hplace, hcut, hcut, div_div,
    ← Nat.cast_mul, nearest_natCast_div _ (Nat.pow_pos (by decide)),
    nearest_natCast_div _ (Nat.mul_pos hden (Nat.pow_pos (by decide))),
    roundHalfEven_offTie num hden hrest hk, hq]

theorem div_eq (hx : x.coefficient ≠ 0) (hy : y.coefficient ≠ 0) : x.div ctx y =
    let q := dividend ctx x y / divisor ctx x y
    let negative := x.negative != y.negative
    if dividend ctx x y % divisor ctx x y = 0 then
      let kept := trimTo (x.exponent - y.exponent) (digitCount q) q (lastPlace ctx x y)
      ctx.finish ⟨negative, kept.1, kept.2⟩
    else ctx.finish ⟨negative, offTie q, lastPlace ctx x y⟩ := by
  unfold div
  rw [if_neg hy, if_neg hx]
  rfl

/-- What is finished for a quotient rounds as the exact one. -/
theorem exists_finish_div (ctx : Context) (x : Decimal) (hy : y.coefficient ≠ 0) :
    ∃ w : Decimal, x.div ctx y = ctx.finish w ∧ w.negative = (x.negative != y.negative) ∧
      ctx.rounded w.magnitude = ctx.rounded (x.magnitude / y.magnitude) := by
  by_cases hx : x.coefficient = 0
  · refine ⟨⟨x.negative != y.negative, 0, x.exponent - y.exponent⟩, ?_, rfl, ?_⟩
    · unfold div
      rw [if_neg hy, if_pos hx]
    · rw [magnitude_eq_zero.mpr hx, zero_div, magnitude_eq_zero.mpr rfl]
  rw [div_eq hx hy]
  dsimp only
  by_cases hrest : dividend ctx x y % divisor ctx x y = 0
  · rw [if_pos hrest]
    refine ⟨_, rfl, rfl, ?_⟩
    have hdivisor : ((divisor ctx x y : ℕ) : ℚ) ≠ 0 := by
      exact_mod_cast Nat.pos_iff_ne_zero.mp (divisor_pos hy)
    rw [magnitude, magnitude_trimTo, magnitude_div ctx x hy,
      Nat.cast_div (Nat.dvd_of_mod_eq_zero hrest) hdivisor]
  · rw [if_neg hrest]
    refine ⟨_, rfl, rfl, ?_⟩
    rw [magnitude_div ctx x hy, ← rounded_offTie (divisor_pos hy) hrest (pow_digits_le ctx hx hy)]
    rfl

/-! ### How far off a rounded number is -/

namespace Context

variable {v : ℚ}

/-- Above the least exponent a number is rounded to within half a unit of its last digit. -/
theorem abs_rounded_sub_le_mul (h : 10 ^ ctx.minExponent ≤ |v|) :
    |ctx.rounded v - v| ≤ 10 ^ (1 - (ctx.digits : ℤ)) / 2 * |v| := by
  have hpos : 0 < |v| := lt_of_lt_of_le (by positivity) h
  have hlog : ctx.minExponent ≤ Int.log 10 |v| :=
    (Int.zpow_le_iff_le_log (by decide) hpos).mp (by exact_mod_cast h)
  have hplace : ctx.place v = 1 - ctx.digits + Int.log 10 |v| := by
    rw [place, tiny]
    omega
  have hfirst : (10 : ℚ) ^ Int.log 10 |v| ≤ |v| := by
    exact_mod_cast Int.zpow_log_le_self (R := ℚ) (b := 10) (by decide) hpos
  calc |ctx.rounded v - v| ≤ 10 ^ ctx.place v / 2 := abs_rounded_sub_le ctx v
    _ = 10 ^ (1 - (ctx.digits : ℤ)) / 2 * 10 ^ Int.log 10 |v| := by
      rw [hplace, zpow_add₀ (by norm_num)]
      ring
    _ ≤ 10 ^ (1 - (ctx.digits : ℤ)) / 2 * |v| := mul_le_mul_of_nonneg_left hfirst (by positivity)

/-- Below the greatest exponent no number becomes too large. -/
theorem rounded_lt (hctx : ctx.Proper) (h0 : 0 ≤ v) (h : v < 10 ^ ctx.maxExponent) :
    ctx.rounded v < 10 ^ (ctx.maxExponent + 1) := by
  have hdigits := hctx.digits_pos
  have hexponents := hctx.exponents
  rcases h0.eq_or_lt with rfl | hpos
  · rw [rounded_zero]
    positivity
  have hplace : ctx.place v ≤ ctx.maxExponent := by
    have hlog := (Int.lt_zpow_iff_log_lt (b := 10) (by decide) hpos).mp (by exact_mod_cast h)
    rw [place, tiny, abs_of_pos hpos]
    omega
  have hunit : (10 : ℚ) ^ ctx.place v ≤ 10 ^ ctx.maxExponent :=
    zpow_le_zpow_right₀ (by norm_num) hplace
  have hhalf := (abs_le.mp (abs_rounded_sub_le ctx v)).2
  have hmax : (0 : ℚ) < 10 ^ ctx.maxExponent := by positivity
  rw [zpow_add_one₀ (by norm_num)]
  linarith

end Context

/-! ### Quotients as numbers -/

@[simp] theorem value_eq_zero : x.value = 0 ↔ x.coefficient = 0 := by
  rw [value, ← magnitude_eq_zero]
  split_ifs
  · exact neg_eq_zero
  · rfl

theorem abs_value (x : Decimal) : |x.value| = x.magnitude := by
  rw [value]
  split_ifs
  · rw [abs_neg, abs_of_nonneg (magnitude_nonneg x)]
  · exact abs_of_nonneg (magnitude_nonneg x)

theorem value_div (x y : Decimal) : x.value / y.value =
    if x.negative != y.negative then -(x.magnitude / y.magnitude) else x.magnitude / y.magnitude := by
  rw [value, value]
  cases x.negative <;> cases y.negative <;> simp [neg_div, div_neg]

/-- A quotient that is not too large is the exact one, rounded once. -/
theorem exists_div (hctx : ctx.Proper) (hy : y.value ≠ 0)
    (h : |x.value / y.value| < 10 ^ ctx.maxExponent) :
    ∃ z, x.div ctx y = .ok z ∧ z.value = ctx.rounded (x.value / y.value) := by
  obtain ⟨w, hdiv, hsign, hrounded⟩ := exists_finish_div ctx x (mt value_eq_zero.mpr hy)
  rw [abs_div, abs_value, abs_value] at h
  have hfits := Context.rounded_lt hctx (div_nonneg (magnitude_nonneg x) (magnitude_nonneg y)) h
  have hend := Context.finishes hctx w
  rw [← hdiv] at hend
  generalize x.div ctx y = result at hend
  cases hend with
  | overflow large =>
    rw [hrounded] at large
    exact absurd hfits (not_lt.mpr large)
  | ok fits sign magnitude =>
    refine ⟨_, rfl, ?_⟩
    rw [value_div, value, sign, hsign, magnitude, hrounded]
    split_ifs
    · rw [Context.rounded_neg]
    · rfl

end Decimal

end LedgerWire
