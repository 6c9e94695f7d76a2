import LedgerWire.Pool.Price
import LedgerWire.Proofs.Number.Division
import LedgerWire.Proofs.Pool.Wire

/-!
# Prices are exact but for the last digits

Each of the three quotients of a price is rounded once, to within half a unit of its last digit. For
pools of the wire all of them stand far from the limits of the context, so there is always a price. Each
error is at most `precision` of its quotient, and the price is off by less than four times that.
-/

namespace LedgerWire

namespace Decimal

/-! ### Quotients with 28 digits -/

/-- The most that half a unit of the last of 28 digits can be, as a part of the number. -/
def precision : ℚ := 5 / 10 ^ 28

variable {x y : Decimal}

/-- A quotient far from the limits is exact but for its last digit. -/
theorem exists_div_near (hlow : 10 ^ (-300 : ℤ) ≤ x.value / y.value)
    (hhigh : x.value / y.value < 10 ^ (300 : ℤ)) :
    ∃ z, x.div .standard y = .ok z ∧
      |z.value - x.value / y.value| ≤ precision * (x.value / y.value) := by
  have hpos : 0 < x.value / y.value := lt_of_lt_of_le (by positivity) hlow
  have hy : y.value ≠ 0 := by
    intro hy
    rw [hy, div_zero] at hpos
    exact lt_irrefl _ hpos
  have hmin : (10 : ℚ) ^ Context.standard.minExponent ≤ 10 ^ (-300 : ℤ) :=
    zpow_le_zpow_right₀ (by norm_num) (by decide)
  have hmax : (10 : ℚ) ^ (300 : ℤ) ≤ 10 ^ Context.standard.maxExponent :=
    zpow_le_zpow_right₀ (by norm_num) (by decide)
  have hunit : (10 : ℚ) ^ (1 - (Context.standard.digits : ℤ)) / 2 = precision := by
    show (10 : ℚ) ^ (1 - (28 : ℤ)) / 2 = 5 / 10 ^ 28
    norm_num
  have habs := abs_of_pos hpos
  obtain ⟨z, hz, hvalue⟩ := exists_div (x := x) Context.proper_standard hy
    (by rw [habs]; exact hhigh.trans_le hmax)
  have hleast : 10 ^ Context.standard.minExponent ≤ |x.value / y.value| := by
    rw [habs]
    exact hmin.trans hlow
  have hnear := Context.abs_rounded_sub_le_mul hleast
  rw [habs, hunit] at hnear
  exact ⟨z, hz, by rwa [hvalue]⟩

theorem exists_div_zero (hx : x.value = 0) (hy : y.value ≠ 0) :
    ∃ z, x.div .standard y = .ok z ∧ z.value = 0 := by
  obtain ⟨z, hz, hvalue⟩ := exists_div (x := x) Context.proper_standard hy (by
    rw [hx, zero_div, abs_zero]
    positivity)
  rw [hx, zero_div, Context.rounded_zero] at hvalue
  exact ⟨z, hz, hvalue⟩

/-! ### Integers and powers of ten -/

@[simp] theorem value_ofInt (n : Int) : (ofInt n).value = n := by
  have habs : ((n.natAbs : ℕ) : ℚ) = |(n : ℚ)| := by rw [Nat.cast_natAbs, Int.cast_abs]
  show (if decide (n < 0) then -((n.natAbs : ℚ) * 10 ^ (0 : ℤ))
    else (n.natAbs : ℚ) * 10 ^ (0 : ℤ)) = n
  rw [zpow_zero, mul_one, habs]
  by_cases h : n < 0
  · have hn : (n : ℚ) < 0 := by exact_mod_cast h
    rw [if_pos (decide_eq_true h), abs_of_neg hn, neg_neg]
  · have hn : (0 : ℚ) ≤ n := by exact_mod_cast not_lt.mp h
    rw [if_neg (by simpa using h), abs_of_nonneg hn]

/-- A power of ten that is not too large is exact. -/
theorem exists_tenTo {ctx : Context} {n : Nat} (hn : (n : Int) ≤ ctx.maxExponent) :
    ∃ s, tenTo ctx n = .ok s ∧ s.value = 10 ^ n := by
  unfold tenTo
  rw [if_neg (by omega), if_neg (by omega)]
  split_ifs with hshort
  · refine ⟨_, rfl, ?_⟩
    show ((10 ^ (n : Int).toNat : ℕ) : ℚ) * 10 ^ (0 : ℤ) = 10 ^ n
    rw [Int.toNat_natCast, zpow_zero, mul_one, Nat.cast_pow, Nat.cast_ofNat]
  · refine ⟨_, rfl, ?_⟩
    show ((10 ^ (ctx.digits - 1) : ℕ) : ℚ) * 10 ^ ((n : ℤ) - (ctx.digits - 1 : ℕ)) = 10 ^ n
    rw [Nat.cast_pow, Nat.cast_ofNat, ← zpow_natCast, ← zpow_add₀ (by norm_num), add_sub_cancel,
      zpow_natCast]

end Decimal

namespace Pool

open Decimal (precision)

/-! ### Errors of a quotient of quotients -/

/-- The errors of dividend, divisor and quotient together. -/
theorem abs_quotient_sub_lt {ε e₁ e₀ a₁ a₀ z : ℚ} (hε : 0 < ε) (hsmall : ε < 1 / 5) (he₁ : 0 < e₁)
    (he₀ : 0 < e₀) (h₁ : |a₁ - e₁| ≤ ε * e₁) (h₀ : |a₀ - e₀| ≤ ε * e₀)
    (hz : |z - a₁ / a₀| ≤ ε * (a₁ / a₀)) : |z - e₁ / e₀| < 4 * ε * (e₁ / e₀) := by
  obtain ⟨hlow₁, hhigh₁⟩ := abs_le.mp h₁
  obtain ⟨hlow₀, hhigh₀⟩ := abs_le.mp h₀
  obtain ⟨hlow, hhigh⟩ := abs_le.mp hz
  have hkept₁ : 0 < (1 - ε) * e₁ := mul_pos (by linarith) he₁
  have hkept₀ : 0 < (1 - ε) * e₀ := mul_pos (by linarith) he₀
  have ha₀ : 0 < a₀ := by linarith
  have hq : 0 < a₁ / a₀ := div_pos (by linarith) ha₀
  have ht : 0 < e₁ / e₀ := div_pos he₁ he₀
  have hupper : a₁ / a₀ * (1 - ε) ≤ (1 + ε) * (e₁ / e₀) := by
    rw [div_mul_eq_mul_div, ← mul_div_assoc, div_le_div_iff₀ ha₀ he₀]
    calc a₁ * (1 - ε) * e₀ = a₁ * ((1 - ε) * e₀) := by ring
      _ ≤ (1 + ε) * e₁ * a₀ := mul_le_mul (by linarith) (by linarith) hkept₀.le (by positivity)
  have hlower : (1 - ε) * (e₁ / e₀) ≤ a₁ / a₀ * (1 + ε) := by
    rw [div_mul_eq_mul_div, ← mul_div_assoc, div_le_div_iff₀ he₀ ha₀]
    calc (1 - ε) * e₁ * a₀ ≤ a₁ * ((1 + ε) * e₀) :=
          mul_le_mul (by linarith) (by linarith) ha₀.le (by linarith)
      _ = a₁ * (1 + ε) * e₀ := by ring
  generalize a₁ / a₀ = q at *
  generalize e₁ / e₀ = t at *
  have hsquare : 5 * ε * ε * t < ε * t := mul_lt_mul_of_pos_right (by nlinarith) ht
  rw [abs_lt]
  constructor
  · have hscaled : (t - 4 * ε * t) * (1 + ε) < z * (1 + ε) := by
      calc (t - 4 * ε * t) * (1 + ε) < (1 - ε) * ((1 - ε) * t) := by nlinarith
        _ ≤ (1 - ε) * (q * (1 + ε)) := mul_le_mul_of_nonneg_left hlower (by linarith)
        _ = (q - ε * q) * (1 + ε) := by ring
        _ ≤ z * (1 + ε) := mul_le_mul_of_nonneg_right (by linarith) (by linarith)
    linarith [lt_of_mul_lt_mul_right hscaled (by linarith)]
  · have hscaled : z * (1 - ε) < (t + 4 * ε * t) * (1 - ε) := by
      calc z * (1 - ε) ≤ (q + ε * q) * (1 - ε) :=
            mul_le_mul_of_nonneg_right (by linarith) (by linarith)
        _ = (1 + ε) * (q * (1 - ε)) := by ring
        _ ≤ (1 + ε) * ((1 + ε) * t) := mul_le_mul_of_nonneg_left hupper (by linarith)
        _ < (t + 4 * ε * t) * (1 - ε) := by nlinarith
    linarith [lt_of_mul_lt_mul_right hscaled (by linarith)]

/-! ### Amounts in whole tokens -/

/-- A reserve as an amount of whole tokens, of which each has that many decimal places. -/
def amount (reserve : Int) (places : Nat) : ℚ := reserve / 10 ^ places

/-- The price as the exact quotient of the amounts. -/
def exactPrice (p : Pool) (places0 places1 : Nat) : ℚ :=
  amount p.reserve1 places1 / amount p.reserve0 places0

variable {token : Entries} {reserve : Int} {places : Nat}

theorem IsToken.decimals (h : IsToken token places) : token.field? "decimals" = some (.int places) := by
  obtain ⟨-, symbol, address, rfl⟩ := h
  rfl

theorem IsToken.exists_scale (h : IsToken token places) :
    ∃ s, scale token = .ok s ∧ s.value = 10 ^ places := by
  have hmax : (places : Int) ≤ Decimal.Context.standard.maxExponent := by
    have := h.1
    show (places : Int) ≤ 999999
    omega
  obtain ⟨s, hs, hvalue⟩ := Decimal.exists_tenTo hmax
  refine ⟨s, ?_, hvalue⟩
  unfold scale
  rw [h.decimals]
  exact mapError_eq_ok.mpr hs

theorem amount_bounds (hreserve : IsAmount reserve) (hne : reserve ≠ 0) (hplaces : places < 256) :
    (10 : ℚ) ^ (-255 : ℤ) ≤ amount reserve places ∧ amount reserve places < 10 ^ (39 : ℤ) := by
  have hlow : (1 : ℚ) ≤ reserve := by
    have := hreserve.1
    exact_mod_cast (show 1 ≤ reserve by omega)
  have hhigh : (reserve : ℚ) < 10 ^ 39 := by
    have := hreserve.2
    exact_mod_cast (show reserve < 10 ^ 39 by omega)
  have hscale : (10 : ℚ) ^ places ≤ 10 ^ 255 := pow_le_pow_right₀ (by norm_num) (by omega)
  have hone : (1 : ℚ) ≤ 10 ^ places := one_le_pow₀ (by norm_num)
  constructor
  · rw [zpow_neg, ← one_div]
    exact div_le_div₀ (by linarith) hlow (by positivity) (by exact_mod_cast hscale)
  · exact (div_le_self (by linarith) hone).trans_lt (by exact_mod_cast hhigh)

/-- Each reserve is scaled to an amount that is exact but for its last digit. -/
theorem IsToken.exists_amount (h : IsToken token places) (hreserve : IsAmount reserve) :
    ∃ s a, scale token = .ok s ∧ (Decimal.ofInt reserve).div .standard s = .ok a ∧
      (reserve = 0 → a.value = 0) ∧
      (reserve ≠ 0 → |a.value - amount reserve places| ≤ precision * amount reserve places) := by
  obtain ⟨s, hs, hscale⟩ := h.exists_scale
  have hexact : (Decimal.ofInt reserve).value / s.value = amount reserve places := by
    rw [Decimal.value_ofInt, hscale, amount]
  by_cases hne : reserve = 0
  · obtain ⟨a, ha, hzero⟩ := Decimal.exists_div_zero (x := .ofInt reserve) (y := s)
      (by rw [Decimal.value_ofInt, hne, Int.cast_zero]) (by rw [hscale]; positivity)
    exact ⟨s, a, hs, ha, fun _ => hzero, fun h => absurd hne h⟩
  · obtain ⟨hlow, hhigh⟩ := amount_bounds hreserve hne h.1
    obtain ⟨a, ha, hnear⟩ := Decimal.exists_div_near (x := .ofInt reserve) (y := s)
      (by rw [hexact]; exact (zpow_le_zpow_right₀ (by norm_num) (by norm_num)).trans hlow)
      (by rw [hexact]; exact hhigh.trans_le (zpow_le_zpow_right₀ (by norm_num) (by norm_num)))
    rw [hexact] at hnear
    exact ⟨s, a, hs, ha, fun h => absurd h hne, fun _ => hnear⟩

/-- A number near another one lies between the next powers of ten. -/
theorem near_bounds {e a : ℚ} {low high : ℤ} (h : 10 ^ low ≤ e ∧ e < 10 ^ high)
    (hnear : |a - e| ≤ precision * e) : 10 ^ (low - 1) ≤ a ∧ a < 10 ^ (high + 1) := by
  have hpos : (0 : ℚ) < 10 ^ low := by positivity
  have hhalf : precision * e ≤ 1 / 2 * e :=
    mul_le_mul_of_nonneg_right (by norm_num [precision]) (hpos.trans_le h.1).le
  obtain ⟨hlow, hhigh⟩ := abs_le.mp hnear
  rw [zpow_sub_one₀ (by norm_num), zpow_add_one₀ (by norm_num)]
  exact ⟨by linarith [h.1], by linarith [h.2]⟩

theorem quotient_bounds {v w : ℚ} {low high : ℤ} (hv : 10 ^ low ≤ v ∧ v < 10 ^ high)
    (hw : 10 ^ low ≤ w ∧ w < 10 ^ high) :
    10 ^ (low - high) ≤ v / w ∧ v / w < 10 ^ (high - low) := by
  have hpos : (0 : ℚ) < 10 ^ low := by positivity
  rw [zpow_sub₀ (by norm_num), zpow_sub₀ (by norm_num)]
  exact ⟨div_le_div₀ (hpos.trans_le hv.1).le hv.1 (hpos.trans_le hw.1) hw.2.le,
    div_lt_div₀ hv.2 hw.1 (by positivity) hpos⟩

/-! ### The price -/

variable {p : Pool}

theorem price_of_amounts {scale0 scale1 amount0 amount1 x : Decimal} (hne : p.reserve0 ≠ 0)
    (hscale0 : scale p.token0 = .ok scale0) (hscale1 : scale p.token1 = .ok scale1)
    (hamount0 : (Decimal.ofInt p.reserve0).div .standard scale0 = .ok amount0)
    (hamount1 : (Decimal.ofInt p.reserve1).div .standard scale1 = .ok amount1)
    (hx : amount1.div .standard amount0 = .ok x) : p.price = .ok x := by
  unfold price
  rw [if_neg hne, hscale0, hscale1]
  exact bind_eq_ok.mpr ⟨scale0, rfl, bind_eq_ok.mpr ⟨scale1, rfl,
    bind_eq_ok.mpr ⟨amount1, mapError_eq_ok.mpr hamount1,
      bind_eq_ok.mpr ⟨amount0, mapError_eq_ok.mpr hamount0, mapError_eq_ok.mpr hx⟩⟩⟩⟩

/-- A pool of the wire has a price, near the exact one. -/
theorem IsWired.exists_price {places0 places1 : Nat} (h : p.IsWired) (h0 : IsToken p.token0 places0)
    (h1 : IsToken p.token1 places1) : ∃ x, p.price = .ok x ∧
      (p.reserve0 = 0 ∨ p.reserve1 = 0 → x.value = 0) ∧
      (p.reserve0 ≠ 0 → p.reserve1 ≠ 0 →
        0 < p.exactPrice places0 places1 ∧ |x.value - p.exactPrice places0 places1| <
          4 * precision * p.exactPrice places0 places1) := by
  by_cases hne0 : p.reserve0 = 0
  · refine ⟨.ofInt 0, if_pos hne0, fun _ => ?_, fun hne => absurd hne0 hne⟩
    rw [Decimal.value_ofInt, Int.cast_zero]
  obtain ⟨scale0, a0, hscale0, ha0, -, hnear0⟩ := h0.exists_amount h.reserve0
  obtain ⟨scale1, a1, hscale1, ha1, hzero1, hnear1⟩ := h1.exists_amount h.reserve1
  have hexact0 := amount_bounds h.reserve0 hne0 h0.1
  have hbounds0 := near_bounds hexact0 (hnear0 hne0)
  have hpos0 : 0 < a0.value := lt_of_lt_of_le (by positivity) hbounds0.1
  by_cases hne1 : p.reserve1 = 0
  · obtain ⟨x, hx, hzero⟩ := Decimal.exists_div_zero (hzero1 hne1) hpos0.ne'
    exact ⟨x, price_of_amounts hne0 hscale0 hscale1 ha0 ha1 hx, fun _ => hzero,
      fun _ hne => absurd hne1 hne⟩
  have hexact1 := amount_bounds h.reserve1 hne1 h1.1
  have hbounds1 := near_bounds hexact1 (hnear1 hne1)
  obtain ⟨hlow, hhigh⟩ := quotient_bounds hbounds1 hbounds0
  obtain ⟨x, hx, hnear⟩ := Decimal.exists_div_near
    ((zpow_le_zpow_right₀ (by norm_num) (by norm_num)).trans hlow)
    (hhigh.trans_le (zpow_le_zpow_right₀ (by norm_num) (by norm_num)))
  refine ⟨x, price_of_amounts hne0 hscale0 hscale1 ha0 ha1 hx,
    fun hzero => (hzero.elim hne0 hne1).elim, fun _ _ => ?_⟩
  have hpos : 0 < amount p.reserve1 places1 := lt_of_lt_of_le (by positivity) hexact1.1
  have hpos' : 0 < amount p.reserve0 places0 := lt_of_lt_of_le (by positivity) hexact0.1
  exact ⟨div_pos hpos hpos', abs_quotient_sub_lt (by norm_num [precision]) (by norm_num [precision])
    hpos hpos' (hnear1 hne1) (hnear0 hne0) hnear⟩

/-- The price of a pool that was read is zero only for want of a reserve, and else it is off by less
than `2 / 10 ^ 27` of the exact one. -/
theorem price_nearly_exact (h : p.IsDecoded) : ∃ places0 places1 : Nat,
    p.token0.field? "decimals" = some (.int places0) ∧
    p.token1.field? "decimals" = some (.int places1) ∧
    ∃ x, p.price = .ok x ∧ (x.value = 0 ↔ p.reserve0 = 0 ∨ p.reserve1 = 0) ∧
      (p.reserve0 ≠ 0 → p.reserve1 ≠ 0 → |x.value - p.exactPrice places0 places1| <
        2 / 10 ^ 27 * p.exactPrice places0 places1) := by
  have hwired := h.isWired
  obtain ⟨places0, h0⟩ := hwired.token0
  obtain ⟨places1, h1⟩ := hwired.token1
  obtain ⟨x, hx, hzero, hnear⟩ := hwired.exists_price h0 h1
  have hunits : 4 * precision = 2 / 10 ^ 27 := by norm_num [precision]
  rw [hunits] at hnear
  refine ⟨places0, places1, h0.decimals, h1.decimals, x, hx, ⟨fun hvalue => ?_, hzero⟩,
    fun hne0 hne1 => (hnear hne0 hne1).2⟩
  by_contra hreserves
  obtain ⟨hne0, hne1⟩ := not_or.mp hreserves
  obtain ⟨hpos, hlt⟩ := hnear hne0 hne1
  rw [hvalue, zero_sub, abs_neg, abs_of_pos hpos] at hlt
  linarith

theorem price_nearly_exact_uneven : ∃ data, decode (.bytes data) = .ok uneven ∧
    ∃ x, uneven.price = .ok x ∧ |x.value - 200000000000000 / 3| < 2 / 10 ^ 13 := by
  obtain ⟨data, hdata, -⟩ := exists_decode_uneven
  obtain ⟨places0, places1, h0, h1, x, hx, -, hnear⟩ := price_nearly_exact (.alone hdata)
  obtain rfl : 18 = places0 := Int.ofNat.inj (Value.int.inj (Option.some.inj h0))
  obtain rfl : 6 = places1 := Int.ofNat.inj (Value.int.inj (Option.some.inj h1))
  have hexact : uneven.exactPrice 18 6 = 200000000000000 / 3 := by
    norm_num [exactPrice, amount, uneven]
  have hlt := hnear (by decide) (by decide)
  rw [hexact] at hlt
  exact ⟨data, hdata, x, hx, hlt.trans (by norm_num)⟩

end Pool

end LedgerWire
