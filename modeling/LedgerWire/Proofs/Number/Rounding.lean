import LedgerWire.Number.Decimal
import LedgerWire.Proofs.Number.Shortest
import Mathlib.Algebra.Order.Field.Power
import Mathlib.Data.Int.Log
import Mathlib.Data.Rat.Floor
import Mathlib.Tactic.Linarith
import Mathlib.Tactic.Qify
import Mathlib.Tactic.Ring

/-!
# Rounding in a context

A computation in a context ends in the number nearest to the exact one that the digits of the context
can hold. `Context.rounded` is that number, told without coefficients and exponents, and however large
it is; a context refuses it just if it is beyond its greatest exponent.
-/

namespace LedgerWire

namespace Decimal

open Binary64 (roundHalfEven roundHalfEven_le le_roundHalfEven)

variable {c k : Nat} {q v : ℚ}

/-- The number without its sign. -/
def magnitude (x : Decimal) : ℚ := x.coefficient * 10 ^ x.exponent

/-- The number that is spelled. -/
def value (x : Decimal) : ℚ := if x.negative then -x.magnitude else x.magnitude

/-! ### The nearest integer -/

/-- The integer nearest to a number, the even one of two. -/
def nearest (q : ℚ) : ℤ :=
  if Int.fract q < 1 / 2 then ⌊q⌋ else if 1 / 2 < Int.fract q then ⌊q⌋ + 1 else ⌊q⌋ + ⌊q⌋ % 2

@[simp] theorem nearest_intCast (n : ℤ) : nearest n = n := by
  have hhalf : (0 : ℚ) < 1 / 2 := by norm_num
  rw [nearest, Int.fract_intCast, if_pos hhalf, Int.floor_intCast]

theorem nearest_natCast_div (n : Nat) {d : Nat} (hd : 0 < d) :
    nearest ((n : ℚ) / d) = roundHalfEven n d := by
  have hpos : (0 : ℚ) < d := by exact_mod_cast hd
  have hlt : ((n % d : ℕ) : ℚ) / d < 1 / 2 ↔ 2 * (n % d) < d := by
    rw [div_lt_div_iff₀ hpos two_pos, one_mul, mul_comm]
    exact_mod_cast Iff.rfl
  have hgt : (1 : ℚ) / 2 < ((n % d : ℕ) : ℚ) / d ↔ d < 2 * (n % d) := by
    rw [div_lt_div_iff₀ two_pos hpos, one_mul, mul_comm]
    exact_mod_cast Iff.rfl
  unfold nearest roundHalfEven
  rw [Rat.floor_natCast_div_natCast, Int.fract_div_natCast_eq_div_natCast_mod]
  simp only [hlt, hgt]
  split_ifs <;> push_cast <;> rfl

/-- The nearest integer is not further off than a half. -/
theorem abs_nearest_sub_le (q : ℚ) : |(nearest q : ℚ) - q| ≤ 1 / 2 := by
  have hsplit := Int.floor_add_fract q
  have hlow := Int.fract_nonneg q
  have hhigh := Int.fract_lt_one q
  unfold nearest
  rw [abs_le]
  split_ifs with h1 h2
  · constructor <;> linarith
  · push_cast
    constructor <;> linarith
  · have hhalf : Int.fract q = 1 / 2 := le_antisymm (not_lt.mp h2) (not_lt.mp h1)
    rcases Int.emod_two_eq_zero_or_one ⌊q⌋ with hparity | hparity
    · rw [hparity]
      push_cast
      constructor <;> linarith
    · rw [hparity]
      push_cast
      constructor <;> linarith

@[simp] theorem nearest_neg (q : ℚ) : nearest (-q) = -nearest q := by
  by_cases hint : Int.fract q = 0
  · obtain ⟨n, rfl⟩ : ∃ n : ℤ, (n : ℚ) = q := ⟨⌊q⌋, by linarith [Int.floor_add_fract q]⟩
    rw [← Int.cast_neg, nearest_intCast, nearest_intCast]
  · have hfract : Int.fract (-q) = 1 - Int.fract q := Int.fract_neg hint
    have hfloor : ⌊-q⌋ = -⌊q⌋ - 1 := by
      have h1 := Int.floor_add_fract q
      have h2 := Int.floor_add_fract (-q)
      have h3 : (⌊-q⌋ : ℚ) = -⌊q⌋ - 1 := by linarith
      exact_mod_cast h3
    unfold nearest
    rw [hfract, hfloor]
    rcases lt_trichotomy (Int.fract q) (1 / 2) with hlt | heq | hgt
    · rw [if_pos hlt, if_neg (by linarith), if_pos (by linarith)]
      omega
    · rw [heq, if_neg (by norm_num), if_neg (by norm_num), if_neg (by norm_num), if_neg (by norm_num)]
      omega
    · rw [if_pos (by linarith), if_neg (by linarith), if_pos hgt]
      omega

theorem nearest_eq_zero_iff : nearest q = 0 ↔ |q| ≤ 1 / 2 := by
  have hpos {r : ℚ} (h0 : 0 ≤ r) (h : r ≤ 1 / 2) : nearest r = 0 := by
    have hfloor : ⌊r⌋ = 0 := Int.floor_eq_zero_iff.mpr ⟨h0, by linarith⟩
    have hfract : Int.fract r = r := Int.fract_eq_self.mpr ⟨h0, by linarith⟩
    rw [nearest, hfract, hfloor, if_neg (not_lt.mpr h)]
    exact ite_self 0
  constructor
  · intro h
    have hnear := abs_nearest_sub_le q
    rwa [h, Int.cast_zero, zero_sub, abs_neg] at hnear
  · intro h
    rcases le_total 0 q with h0 | h0
    · rw [abs_of_nonneg h0] at h
      exact hpos h0 h
    · rw [abs_of_nonpos h0] at h
      have := hpos (neg_nonneg.mpr h0) h
      rwa [nearest_neg, neg_eq_zero] at this

theorem le_nearest {n : ℤ} (h : (n : ℚ) ≤ q) : n ≤ nearest q := by
  have hfloor : n ≤ ⌊q⌋ := Int.le_floor.mpr h
  unfold nearest
  split_ifs <;> omega

/-! ### Rounding to the digits of a context -/

namespace Context

variable {ctx : Context}

/-- The place of the last digit that is kept of a number. -/
def place (ctx : Context) (v : ℚ) : ℤ := max ctx.tiny (Int.log 10 |v| + 1 - ctx.digits)

/-- The nearest number with the digits of the context, as large as it may be. -/
def rounded (ctx : Context) (v : ℚ) : ℚ := nearest (v / 10 ^ ctx.place v) * 10 ^ ctx.place v

/-- The context keeps a digit, and there is room between its exponents. -/
structure Proper (ctx : Context) : Prop where
  digits_pos : 0 < ctx.digits
  exponents : ctx.minExponent ≤ ctx.maxExponent

theorem proper_standard : standard.Proper := ⟨by decide, by decide⟩

theorem proper_wide : wide.Proper := ⟨by decide, by decide⟩

@[simp] theorem place_neg (v : ℚ) : ctx.place (-v) = ctx.place v := by
  rw [place, abs_neg, place]

@[simp] theorem rounded_neg (v : ℚ) : ctx.rounded (-v) = -ctx.rounded v := by
  rw [rounded, place_neg, neg_div, nearest_neg, Int.cast_neg, neg_mul, rounded]

@[simp] theorem rounded_zero : ctx.rounded 0 = 0 := by
  rw [rounded, zero_div, nearest_eq_zero_iff.mpr (by norm_num), Int.cast_zero, zero_mul]

theorem tiny_le_place (v : ℚ) : ctx.tiny ≤ ctx.place v := le_max_left _ _

/-- What is rounded is not further off than half a unit of the last place. -/
theorem abs_rounded_sub_le (ctx : Context) (v : ℚ) :
    |ctx.rounded v - v| ≤ 10 ^ ctx.place v / 2 := by
  have hunit : (0 : ℚ) < 10 ^ ctx.place v := by positivity
  have hnear := abs_nearest_sub_le (v / 10 ^ ctx.place v)
  have hscaled : ctx.rounded v - v =
      (nearest (v / 10 ^ ctx.place v) - v / 10 ^ ctx.place v) * 10 ^ ctx.place v := by
    rw [sub_mul, div_mul_cancel₀ _ hunit.ne', rounded]
  rw [hscaled, abs_mul, abs_of_pos hunit]
  calc |(nearest (v / 10 ^ ctx.place v) : ℚ) - v / 10 ^ ctx.place v| * 10 ^ ctx.place v
      ≤ 1 / 2 * 10 ^ ctx.place v := mul_le_mul_of_nonneg_right hnear hunit.le
    _ = 10 ^ ctx.place v / 2 := by ring

/-- Only what is at most half of the least unit is rounded to nothing. -/
theorem rounded_eq_zero_iff (h : 0 < ctx.digits) : ctx.rounded v = 0 ↔ 2 * |v| ≤ 10 ^ ctx.tiny := by
  have hunit : (0 : ℚ) < 10 ^ ctx.place v := by positivity
  have hnear : ctx.rounded v = 0 ↔ 2 * |v| ≤ 10 ^ ctx.place v := by
    rw [rounded, mul_eq_zero_iff_right hunit.ne', Int.cast_eq_zero, nearest_eq_zero_iff, abs_div,
      abs_of_pos hunit, div_le_div_iff₀ hunit two_pos, one_mul, mul_comm]
  rw [hnear]
  constructor
  · intro hle
    rcases le_total (Int.log 10 |v| + 1 - ctx.digits) ctx.tiny with hp | hp
    · rwa [place, max_eq_left hp] at hle
    · rcases eq_or_ne v 0 with rfl | hv
      · rw [abs_zero, mul_zero]
        positivity
      · -- the digits of the context set the place, and no number is so far below its own digits
        have hpos : 0 < |v| := abs_pos.mpr hv
        have hlog : (10 : ℚ) ^ Int.log 10 |v| ≤ |v| := by
          exact_mod_cast Int.zpow_log_le_self (R := ℚ) (by decide) hpos
        have hplace : (10 : ℚ) ^ ctx.place v ≤ 10 ^ Int.log 10 |v| := by
          rw [place, max_eq_right hp]
          exact zpow_le_zpow_right₀ (by norm_num) (by omega)
        linarith
  · intro hle
    exact hle.trans (zpow_le_zpow_right₀ (by norm_num) (tiny_le_place v))

/-- A number whose last digit stands no lower than the last place that is kept is kept. -/
theorem rounded_eq_self {n e : ℤ} (hv : v = n * 10 ^ e) (h : ctx.place v ≤ e) :
    ctx.rounded v = v := by
  have hscaled : v / 10 ^ ctx.place v = ((n * 10 ^ (e - ctx.place v).toNat : ℤ) : ℚ) := by
    have hnat : ((e - ctx.place v).toNat : ℤ) = e - ctx.place v := Int.toNat_of_nonneg (by omega)
    rw [Int.cast_mul, Int.cast_pow, ← zpow_natCast, hnat, Int.cast_ofNat, zpow_sub₀ (by norm_num),
      ← mul_div_assoc, ← hv]
  have hunit : (10 : ℚ) ^ ctx.place v ≠ 0 := by positivity
  rw [rounded, hscaled, nearest_intCast, ← hscaled, div_mul_cancel₀ _ hunit]

/-- A number with no more digits than the context is kept, or it is too small for them. -/
theorem rounded_of_short {n e : ℤ} (hv : v = n * 10 ^ e) (hn : |n| < 10 ^ ctx.digits) :
    ctx.rounded v = v ∨ (ctx.place v = ctx.tiny ∧ |v| < 10 ^ (ctx.tiny + ctx.digits)) := by
  rcases eq_or_ne v 0 with rfl | hne
  · exact .inl rounded_zero
  have hbound : |v| < 10 ^ (e + ctx.digits) := by
    have hcast : (|n| : ℚ) < 10 ^ ctx.digits := by exact_mod_cast hn
    have hunit : (0 : ℚ) < 10 ^ e := by positivity
    rw [hv, abs_mul, abs_of_pos hunit, zpow_add₀ (by norm_num), zpow_natCast, mul_comm]
    exact mul_lt_mul_of_pos_left hcast hunit
  have hlog : Int.log 10 |v| < e + ctx.digits :=
    (Int.lt_zpow_iff_log_lt (b := 10) (by decide) (abs_pos.mpr hne)).mp (by exact_mod_cast hbound)
  by_cases hplace : ctx.place v ≤ e
  · exact .inl (rounded_eq_self hv hplace)
  · rw [place] at hplace
    have htiny : e ≤ ctx.tiny := by omega
    refine .inr ⟨max_eq_left (by omega), hbound.trans_le ?_⟩
    exact zpow_le_zpow_right₀ (by norm_num) (by omega)

end Context

/-! ### Digits -/

theorem digitCount_le_iff (hk : 0 < k) : digitCount c ≤ k ↔ c < 10 ^ k :=
  Nat.length_toDigits_le_iff (by decide) hk

theorem digitCount_pos (c : Nat) : 0 < digitCount c := Nat.length_toDigits_pos

theorem lt_pow_digitCount (c : Nat) : c < 10 ^ digitCount c :=
  (digitCount_le_iff (digitCount_pos c)).mp (le_refl _)

theorem pow_le_of_digitCount (hc : c ≠ 0) : 10 ^ (digitCount c - 1) ≤ c := by
  rcases Nat.eq_zero_or_pos (digitCount c - 1) with h | h
  · rw [h]
    exact Nat.pos_of_ne_zero hc
  · rw [← not_lt, ← digitCount_le_iff h]
    have := digitCount_pos c
    omega

theorem log_eq {e : ℤ} (hlow : 10 ^ e ≤ v) (hhigh : v < 10 ^ (e + 1)) : Int.log 10 v = e := by
  have hpos : 0 < v := lt_of_lt_of_le (by positivity) hlow
  have h1 := (Int.zpow_le_iff_le_log (b := 10) (by decide) hpos).mp (by exact_mod_cast hlow)
  have h2 := (Int.lt_zpow_iff_log_lt (b := 10) (by decide) hpos).mp (by exact_mod_cast hhigh)
  omega

/-- The place of the first digit. -/
theorem log_magnitude {x : Decimal} (hx : x.coefficient ≠ 0) :
    Int.log 10 x.magnitude = x.adjusted := by
  have hdigits := digitCount_pos x.coefficient
  apply log_eq
  · have hle : (10 : ℚ) ^ ((digitCount x.coefficient - 1 : ℕ) : ℤ) ≤ x.coefficient := by
      rw [zpow_natCast]
      exact_mod_cast pow_le_of_digitCount hx
    have hsum : x.adjusted = ((digitCount x.coefficient - 1 : ℕ) : ℤ) + x.exponent := by
      rw [adjusted]
      omega
    rw [hsum, zpow_add₀ (by norm_num), magnitude]
    exact mul_le_mul_of_nonneg_right hle (by positivity)
  · have hlt : (x.coefficient : ℚ) < 10 ^ ((digitCount x.coefficient : ℕ) : ℤ) := by
      rw [zpow_natCast]
      exact_mod_cast lt_pow_digitCount x.coefficient
    have hsum : x.adjusted + 1 = ((digitCount x.coefficient : ℕ) : ℤ) + x.exponent := by
      rw [adjusted]
      omega
    rw [hsum, zpow_add₀ (by norm_num), magnitude]
    exact mul_lt_mul_of_pos_right hlt (by positivity)

theorem magnitude_nonneg (x : Decimal) : 0 ≤ x.magnitude := by
  rw [magnitude]
  positivity

theorem magnitude_pos {x : Decimal} (hx : x.coefficient ≠ 0) : 0 < x.magnitude := by
  have hcoefficient : (0 : ℚ) < x.coefficient := by exact_mod_cast Nat.pos_of_ne_zero hx
  rw [magnitude]
  positivity

theorem pow_le_magnitude_iff {x : Decimal} (hx : x.coefficient ≠ 0) {e : ℤ} :
    (10 : ℚ) ^ e ≤ x.magnitude ↔ e ≤ x.adjusted := by
  rw [← log_magnitude hx, ← Int.zpow_le_iff_le_log (by decide) (magnitude_pos hx)]
  exact_mod_cast Iff.rfl

namespace Context

variable {ctx : Context} {x : Decimal}

theorem place_magnitude (hx : x.coefficient ≠ 0) :
    ctx.place x.magnitude = max ctx.tiny (x.adjusted + 1 - ctx.digits) := by
  rw [place, abs_of_nonneg (magnitude_nonneg x), log_magnitude hx]

theorem dropDigits_eq (c k : Nat) : dropDigits c k = roundHalfEven c (10 ^ k) := by
  unfold dropDigits
  split_ifs with h
  · obtain ⟨j, rfl⟩ : ∃ j, k = j + 1 := ⟨k - 1, by omega⟩
    have hlt : c < 10 ^ j :=
      (lt_pow_digitCount c).trans_le (Nat.pow_le_pow_right (by decide) (by omega))
    have hhalf : 2 * c < 10 ^ (j + 1) := by
      rw [Nat.pow_succ]
      omega
    have hwhole : c < 10 ^ (j + 1) := by omega
    unfold roundHalfEven
    rw [Nat.mod_eq_of_lt hwhole, Nat.div_eq_of_lt hwhole, if_pos hhalf]
  · rfl

/-- Where digits are dropped, the number is rounded to the place of the last one that stays. -/
theorem rounded_magnitude (hp : ctx.place x.magnitude = x.exponent + k) :
    ctx.rounded x.magnitude = dropDigits x.coefficient k * 10 ^ (x.exponent + k) := by
  have hten : (0 : Nat) < 10 ^ k := Nat.pow_pos (by decide)
  have hscaled : x.magnitude / 10 ^ (x.exponent + k) = (x.coefficient : ℚ) / (10 ^ k : ℕ) := by
    have hunit : (10 : ℚ) ^ x.exponent ≠ 0 := by positivity
    rw [magnitude, zpow_add₀ (by norm_num), zpow_natCast, Nat.cast_pow, Nat.cast_ofNat,
      mul_comm (10 ^ x.exponent), mul_div_mul_right _ _ hunit]
  rw [rounded, hp, hscaled, nearest_natCast_div _ hten, dropDigits_eq, Int.cast_natCast]

theorem le_rounded {e : ℤ} (h : (10 : ℚ) ^ e ≤ v) (hp : ctx.place v ≤ e) : 10 ^ e ≤ ctx.rounded v := by
  have hunit : (0 : ℚ) < 10 ^ ctx.place v := by positivity
  have hpow : (10 : ℚ) ^ e = ((10 ^ (e - ctx.place v).toNat : ℤ) : ℚ) * 10 ^ ctx.place v := by
    have hnat : ((e - ctx.place v).toNat : ℤ) = e - ctx.place v := Int.toNat_of_nonneg (by omega)
    rw [Int.cast_pow, ← zpow_natCast, hnat, Int.cast_ofNat, ← zpow_add₀ (by norm_num), sub_add_cancel]
  have hle : (10 ^ (e - ctx.place v).toNat : ℤ) ≤ nearest (v / 10 ^ ctx.place v) := by
    refine le_nearest ?_
    rw [le_div_iff₀ hunit, ← hpow]
    exact h
  rw [hpow, rounded]
  exact mul_le_mul_of_nonneg_right (by exact_mod_cast hle) hunit.le

/-! ### The end of a computation -/

/-- The end of a computation is the rounded number, with the sign of the exact one, or too large. -/
inductive Finishes (ctx : Context) (x : Decimal) : Except DecimalFault Decimal → Prop
  | overflow (large : 10 ^ (ctx.maxExponent + 1) ≤ ctx.rounded x.magnitude) :
    Finishes ctx x (.error .overflow)
  | ok {y : Decimal} (fits : ctx.rounded x.magnitude < 10 ^ (ctx.maxExponent + 1))
    (sign : y.negative = x.negative) (magnitude : y.magnitude = ctx.rounded x.magnitude) :
    Finishes ctx x (.ok y)

/-- A zero keeps its sign and ends with an exponent of the context. -/
theorem finishes_zero (hx : x.coefficient = 0) : Finishes ctx x (ctx.finish x) := by
  have hzero : x.magnitude = 0 := by rw [magnitude, hx, Nat.cast_zero, zero_mul]
  have hrounded : ctx.rounded x.magnitude = 0 := by simp [hzero]
  rw [finish, if_pos hx]
  refine .ok ?_ rfl ?_
  · rw [hrounded]
    positivity
  · rw [hrounded, magnitude, hx, Nat.cast_zero, zero_mul]

/-- A number whose first digit stands beyond the greatest exponent is too large. -/
theorem finishes_large (hctx : ctx.Proper) (hx : x.coefficient ≠ 0)
    (hlarge : ctx.maxExponent < x.adjusted) : Finishes ctx x (ctx.finish x) := by
  have hdigits := hctx.digits_pos
  have hexponents := hctx.exponents
  have hplace : ctx.place x.magnitude ≤ x.adjusted := by
    rw [place_magnitude hx, tiny]
    omega
  have hrounded : 10 ^ x.adjusted ≤ ctx.rounded x.magnitude :=
    le_rounded ((pow_le_magnitude_iff hx).mpr (le_refl _)) hplace
  rw [finish, if_neg hx, if_pos hlarge]
  exact .overflow ((zpow_le_zpow_right₀ (by norm_num) hlarge).trans hrounded)

/-- A number whose first digit stands too low loses the digits below the least unit. -/
theorem finishes_small (hctx : ctx.Proper) (hx : x.coefficient ≠ 0)
    (hsmall : x.adjusted < ctx.minExponent ∧ x.exponent < ctx.tiny) :
    Finishes ctx x (ctx.finish x) := by
  have hdigits := hctx.digits_pos
  have hexponents := hctx.exponents
  have hplace : ctx.place x.magnitude = x.exponent + (ctx.tiny - x.exponent).toNat := by
    rw [place_magnitude hx, tiny] at *
    omega
  have hrounded := rounded_magnitude hplace
  have hunit : x.exponent + (ctx.tiny - x.exponent).toNat = ctx.tiny := by omega
  have hlog : (10 : ℚ) ^ ctx.minExponent ≤ 10 ^ ctx.maxExponent :=
    zpow_le_zpow_right₀ (by norm_num) hexponents
  have hfits : ctx.rounded x.magnitude < 10 ^ (ctx.maxExponent + 1) := by
    have hhalf := (abs_le.mp (abs_rounded_sub_le ctx x.magnitude)).2
    have hlow : x.magnitude < 10 ^ ctx.minExponent := by
      rw [← not_le, pow_le_magnitude_iff hx]
      omega
    have htiny : (10 : ℚ) ^ ctx.place x.magnitude ≤ 10 ^ ctx.minExponent := by
      rw [hplace, hunit, tiny]
      exact zpow_le_zpow_right₀ (by norm_num) (by omega)
    rw [zpow_add_one₀ (by norm_num)]
    have hpos : (0 : ℚ) < 10 ^ ctx.maxExponent := by positivity
    linarith
  rw [finish, if_neg hx, if_neg (by omega), if_pos hsmall]
  refine .ok hfits rfl ?_
  rw [hrounded, hunit]
  rfl

/-- A number with no more digits than the context keeps them all. -/
theorem finishes_whole (hx : x.coefficient ≠ 0) (hlarge : ¬ ctx.maxExponent < x.adjusted)
    (hsmall : ¬ (x.adjusted < ctx.minExponent ∧ x.exponent < ctx.tiny))
    (h0 : digitCount x.coefficient - ctx.digits = 0) : Finishes ctx x (ctx.finish x) := by
  have hplace : ctx.place x.magnitude ≤ x.exponent := by
    rw [place_magnitude hx]
    rw [tiny, adjusted] at *
    omega
  have hself : ctx.rounded x.magnitude = x.magnitude :=
    rounded_eq_self (n := x.coefficient) (by rw [magnitude, Int.cast_natCast]) hplace
  rw [finish, if_neg hx, if_neg hlarge, if_neg hsmall]
  dsimp only
  rw [if_pos h0]
  refine .ok ?_ rfl hself.symm
  rw [hself, ← not_le, pow_le_magnitude_iff hx]
  omega

/-- A carry beyond the first digit moves the point. -/
theorem carried {kept digits : Nat} {e : ℤ} (x : Decimal) (hdigits : 0 < digits) (hkept : kept ≠ 0) :
    ∃ y : Decimal, (if kept = 10 ^ digits then { x with coefficient := kept / 10, exponent := e + 1 }
        else { x with coefficient := kept, exponent := e }) = y ∧
      y.negative = x.negative ∧ y.coefficient ≠ 0 ∧ y.magnitude = kept * 10 ^ e := by
  split_ifs with h
  · obtain ⟨j, rfl⟩ : ∃ j, digits = j + 1 := ⟨digits - 1, by omega⟩
    have htenth : kept / 10 = 10 ^ j := by
      rw [h, Nat.pow_succ, Nat.mul_div_cancel _ (by decide)]
    refine ⟨_, rfl, rfl, ?_, ?_⟩
    · show kept / 10 ≠ 0
      rw [htenth]
      exact Nat.pos_iff_ne_zero.mp (Nat.pow_pos (by decide))
    · have hkept : (kept : ℚ) = 10 ^ j * 10 := by
        rw [h, Nat.pow_succ]
        push_cast
        rfl
      show ((kept / 10 : ℕ) : ℚ) * 10 ^ (e + 1) = _
      rw [htenth, hkept, zpow_add_one₀ (by norm_num)]
      push_cast
      ring
  · exact ⟨_, rfl, rfl, hkept, rfl⟩

/-- Of a number with more digits the first ones are kept. -/
theorem finishes_cut (hctx : ctx.Proper) (hx : x.coefficient ≠ 0)
    (hlarge : ¬ ctx.maxExponent < x.adjusted)
    (hsmall : ¬ (x.adjusted < ctx.minExponent ∧ x.exponent < ctx.tiny))
    (h0 : digitCount x.coefficient - ctx.digits ≠ 0) : Finishes ctx x (ctx.finish x) := by
  have hdigits := hctx.digits_pos
  rw [finish, if_neg hx, if_neg hlarge, if_neg hsmall]
  dsimp only
  rw [if_neg h0]
  generalize hk : digitCount x.coefficient - ctx.digits = k at h0 ⊢
  have hplace : ctx.place x.magnitude = x.exponent + k := by
    rw [place_magnitude hx]
    rw [tiny, adjusted] at *
    omega
  have hkept : dropDigits x.coefficient k ≠ 0 := by
    have hdiv : 1 ≤ x.coefficient / 10 ^ k := by
      rw [Nat.one_le_div_iff (Nat.pow_pos (by decide))]
      exact (Nat.pow_le_pow_right (by decide) (by omega)).trans (pow_le_of_digitCount hx)
    rw [dropDigits_eq]
    exact Nat.pos_iff_ne_zero.mp (hdiv.trans (le_roundHalfEven _ _))
  -- the context looks at the carried number, the statement at the rounded one
  obtain ⟨y, hy, hsign, hne, hmagnitude⟩ := carried (e := x.exponent + k) x hdigits hkept
  rw [hy, ← rounded_magnitude hplace] at *
  split_ifs with hover
  · refine .overflow ?_
    rw [← hmagnitude, pow_le_magnitude_iff hne]
    exact hover
  · refine .ok ?_ hsign hmagnitude
    rw [← hmagnitude, ← not_le, pow_le_magnitude_iff hne]
    exact hover

/-- A computation ends in the rounded number, unless that is too large for the context. -/
theorem finishes (hctx : ctx.Proper) (x : Decimal) : Finishes ctx x (ctx.finish x) := by
  by_cases hx : x.coefficient = 0
  · exact finishes_zero hx
  by_cases hlarge : ctx.maxExponent < x.adjusted
  · exact finishes_large hctx hx hlarge
  by_cases hsmall : x.adjusted < ctx.minExponent ∧ x.exponent < ctx.tiny
  · exact finishes_small hctx hx hsmall
  by_cases h0 : digitCount x.coefficient - ctx.digits = 0
  · exact finishes_whole hx hlarge hsmall h0
  · exact finishes_cut hctx hx hlarge hsmall h0

/-! ### Signs -/

theorem rounded_nonneg (ctx : Context) (hv : 0 ≤ v) : 0 ≤ ctx.rounded v := by
  have hunit : (0 : ℚ) < 10 ^ ctx.place v := by positivity
  have hnear : 0 ≤ nearest (v / 10 ^ ctx.place v) :=
    le_nearest (by rw [Int.cast_zero]; exact div_nonneg hv hunit.le)
  rw [rounded]
  exact mul_nonneg (by exact_mod_cast hnear) hunit.le

theorem abs_rounded_value (ctx : Context) (x : Decimal) :
    |ctx.rounded x.value| = ctx.rounded x.magnitude := by
  have hnonneg := rounded_nonneg ctx (magnitude_nonneg x)
  rw [value]
  split_ifs
  · rw [rounded_neg, abs_neg, abs_of_nonneg hnonneg]
  · exact abs_of_nonneg hnonneg

theorem value_eq_rounded {y : Decimal} (hsign : y.negative = x.negative)
    (hmagnitude : y.magnitude = ctx.rounded x.magnitude) : y.value = ctx.rounded x.value := by
  rw [value, value, hsign, hmagnitude]
  split_ifs
  · rw [rounded_neg]
  · rfl

end Context

/-! ### Whole numbers -/

variable {x : Decimal}

/-- The exact product, before it is rounded. -/
def product (x y : Decimal) : Decimal :=
  ⟨x.negative != y.negative, x.coefficient * y.coefficient, x.exponent + y.exponent⟩

theorem mul_eq (ctx : Context) (x y : Decimal) : x.mul ctx y = ctx.finish (x.product y) := rfl

@[simp]
theorem magnitude_product (x y : Decimal) : (x.product y).magnitude = x.magnitude * y.magnitude := by
  show ((x.coefficient * y.coefficient : ℕ) : ℚ) * 10 ^ (x.exponent + y.exponent) = _
  rw [magnitude, magnitude, zpow_add₀ (by norm_num), Nat.cast_mul]
  ring

@[simp] theorem value_product (x y : Decimal) : (x.product y).value = x.value * y.value := by
  have hsign : (x.product y).negative = (x.negative != y.negative) := rfl
  rw [value, value, value, magnitude_product, hsign]
  cases x.negative <;> cases y.negative <;> simp

@[simp] theorem magnitude_eq_zero : x.magnitude = 0 ↔ x.coefficient = 0 := by
  have hunit : (10 : ℚ) ^ x.exponent ≠ 0 := by positivity
  rw [magnitude, mul_eq_zero_iff_right hunit, Nat.cast_eq_zero]

theorem magnitude_of_neg (h : x.exponent < 0) :
    x.magnitude = (x.coefficient : ℚ) / (10 ^ (-x.exponent).toNat : ℕ) := by
  have hnat : ((-x.exponent).toNat : ℤ) = -x.exponent := Int.toNat_of_nonneg (by omega)
  rw [magnitude, Nat.cast_pow, Nat.cast_ofNat, ← zpow_natCast, hnat, zpow_neg, div_inv_eq_mul]

/-- A whole number is told by its digits. -/
theorem isWhole_iff : x.isWhole ↔ ∃ n : Nat, x.magnitude = n := by
  rw [isWhole, Bool.or_eq_true, Bool.or_eq_true, Bool.and_eq_true, decide_eq_true_eq,
    decide_eq_true_eq, decide_eq_true_eq, beq_iff_eq]
  by_cases hzero : x.coefficient = 0
  · exact iff_of_true (.inl (.inl hzero)) ⟨0, by rw [magnitude_eq_zero.mpr hzero, Nat.cast_zero]⟩
  by_cases hexponent : 0 ≤ x.exponent
  · refine iff_of_true (.inl (.inr hexponent)) ⟨x.coefficient * 10 ^ x.exponent.toNat, ?_⟩
    have hnat : (x.exponent.toNat : ℤ) = x.exponent := Int.toNat_of_nonneg hexponent
    rw [magnitude, Nat.cast_mul, Nat.cast_pow, Nat.cast_ofNat, ← zpow_natCast, hnat]
  · have hten : (10 ^ (-x.exponent).toNat : ℕ) ≠ 0 := Nat.pos_iff_ne_zero.mp (Nat.pow_pos (by decide))
    have hdvd : (∃ n : Nat, x.magnitude = n) ↔ 10 ^ (-x.exponent).toNat ∣ x.coefficient := by
      rw [magnitude_of_neg (not_le.mp hexponent)]
      have hcast : ((10 ^ (-x.exponent).toNat : ℕ) : ℚ) ≠ 0 := by exact_mod_cast hten
      simp only [div_eq_iff hcast]
      constructor
      · rintro ⟨n, hn⟩
        exact ⟨n, by rw [Nat.mul_comm]; exact_mod_cast hn⟩
      · rintro ⟨n, hn⟩
        exact ⟨n, by rw [hn, Nat.cast_mul, mul_comm]⟩
    rw [hdvd, Nat.dvd_iff_mod_eq_zero]
    constructor
    · rintro ((h | h) | ⟨-, h⟩)
      · exact absurd h hzero
      · exact absurd h hexponent
      · exact h
    · intro h
      have hle : 10 ^ (-x.exponent).toNat ≤ x.coefficient :=
        Nat.le_of_dvd (Nat.pos_of_ne_zero hzero) (Nat.dvd_of_mod_eq_zero h)
      have hlt := hle.trans_lt (lt_pow_digitCount x.coefficient)
      rw [Nat.pow_lt_pow_iff_right (by decide)] at hlt
      exact .inr ⟨by omega, h⟩

theorem wholePart_of_isWhole (h : x.isWhole) : (x.wholePart : ℚ) = x.magnitude := by
  obtain ⟨n, hn⟩ := isWhole_iff.mp h
  unfold wholePart
  split_ifs with hexponent hzero
  · have hnat : (x.exponent.toNat : ℤ) = x.exponent := Int.toNat_of_nonneg hexponent
    rw [magnitude, Nat.cast_mul, Nat.cast_pow, Nat.cast_ofNat, ← zpow_natCast, hnat]
  · rw [magnitude_eq_zero.mpr hzero, Nat.cast_zero]
  · have hten : ((10 ^ (-x.exponent).toNat : ℕ) : ℚ) ≠ 0 := by
      exact_mod_cast Nat.pos_iff_ne_zero.mp (Nat.pow_pos (by decide))
    rw [magnitude_of_neg (not_le.mp hexponent), div_eq_iff hten] at hn
    have hcoefficient : x.coefficient = n * 10 ^ (-x.exponent).toNat := by exact_mod_cast hn
    rw [magnitude_of_neg (not_le.mp hexponent), hcoefficient, Nat.mul_div_cancel _
      (Nat.pow_pos (by decide)), Nat.cast_mul, mul_div_cancel_right₀ _ hten]

end Decimal

end LedgerWire
