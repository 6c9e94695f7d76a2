import LedgerWire.Amm.Amount
import LedgerWire.Error.Sort
import LedgerWire.Proofs.Number.Literal

/-!
# Amounts are rounded before they are tested

The product with the units of a token is rounded to the digits of the wide context, and the test for a
fraction sees what is left. `Settles` tells the answer from the rounded product alone; where the product
slips, the answer is wrong or an error of another sort than the others. The units of a literal that is
written as people write them slip only if they are next to nothing.
-/

namespace LedgerWire

namespace Amount

open Decimal
open Decimal.Context (wide)

/-- The exact number of base units. -/
def units (x : Decimal) : ℚ := x.value * unitsPerToken

/-- The number that a text or an integer denotes. -/
inductive Denotes : Value → Decimal → Prop
  | text {t : Text} {l : Literal} (spells : Spells t l) : Denotes (.text t) l.decimal
  | int (n : Int) : Denotes (.int n) (ofInt n)

/-- The units are too many for the context, or they are rounded to a natural number other than
themselves. -/
def Slips (v : ℚ) : Prop :=
  10 ^ (wide.maxExponent + 1) ≤ |wide.rounded v| ∨ ∃ n : ℕ, wide.rounded v = n ∧ v ≠ n

/-- An answer is exact, and an error says that the amount is none that is taken. -/
def Faithful (given : Value) : Prop :=
  match parse given with
  | .ok n => (∃ x, Denotes given x) ∧ ∀ x, Denotes given x → (n : ℚ) = units x
  | .error fault => fault.sort = .value

/-- The amount is infinite, or its units slip. -/
def Loses (given : Value) : Prop :=
  SpellsInfinity false given.display ∨ ∃ x, Denotes given x ∧ x.InRange ∧ Slips (units x)

/-- A natural number of units is answered, and all else is an error that says so. -/
def Scales (v : ℚ) : Except AmountFault Int → Prop
  | .ok n => 0 ≤ n ∧ (n : ℚ) = v
  | .error fault => fault.sort = .value ∧ ¬ ∃ n : ℕ, v = n

/-- A literal as people write them: the digits fit the wide context, and the power is no extreme one.
There may be any number of zeros before the digits. -/
structure Realistic (l : Literal) : Prop where
  digits : (l.digits.dropWhile (· = 0)).length ≤ 80
  power : |powerValue l.power| ≤ 100000

/-- A zero whose exponent no decimal has, or a number whose units are nothing in the wide context. -/
def Misses (x : Decimal) : Prop :=
  (x.coefficient = 0 ∧ x.exponent < DecimalValue.minLast) ∨
    (x.coefficient ≠ 0 ∧ DecimalValue.minLast ≤ x.exponent ∧ 2 * |units x| ≤ 10 ^ wide.tiny)

/-- What an amount that is read as a number comes to. -/
inductive Settles (given : Value) (v : ℚ) : Except AmountFault Int → Prop
  | overflow (large : 10 ^ (wide.maxExponent + 1) ≤ |wide.rounded v|) :
    Settles given v (.error (.arithmetic .overflow))
  | fraction (fits : |wide.rounded v| < 10 ^ (wide.maxExponent + 1))
    (broken : ¬ ∃ n : ℕ, |wide.rounded v| = n) : Settles given v (.error (.fraction given))
  | negative (fits : |wide.rounded v| < 10 ^ (wide.maxExponent + 1)) (below : wide.rounded v < 0) :
    Settles given v (.error .negative)
  | units {n : ℕ} (fits : |wide.rounded v| < 10 ^ (wide.maxExponent + 1)) (whole : wide.rounded v = n) :
    Settles given v (.ok n)

variable {given : Value} {x : Decimal} {v : ℚ} {r : Except AmountFault Int}

/-! ### Reading -/

theorem Denotes.read? (h : Denotes given x) : DecimalValue.read? given.display = held x := by
  cases h with
  | text spells => exact read?_of_spells spells
  | int n => exact read?_ofInt n

theorem Denotes.read?_of_inRange (h : Denotes given x) (hrange : x.InRange) :
    DecimalValue.read? given.display = some (.finite x) :=
  h.read?.trans (held_eq_some.mpr ⟨hrange, rfl⟩)

theorem Denotes.unique {y : Decimal} (hx : Denotes given x) (hy : Denotes given y) (h : x.InRange) :
    y = x := by
  have hheld : held y = some (.finite x) := hy.read?.symm.trans (hx.read?_of_inRange h)
  obtain ⟨⟨⟩⟩ := (held_eq_some.mp hheld).2
  rfl

theorem denotes_of_read? (hgiven : given.kind = .text ∨ given.kind = .int)
    (h : DecimalValue.read? given.display = some (.finite x)) : Denotes given x ∧ x.InRange := by
  have hdenotes : Denotes given x := by
    cases given with
    | text t =>
      obtain ⟨l, hl, rfl⟩ := exists_spells h
      exact .text hl
    | int n =>
      obtain ⟨⟨⟩⟩ := (held_eq_some.mp ((read?_ofInt n).symm.trans h)).2
      exact .int n
    | _ => rcases hgiven with ⟨⟨⟩⟩ | ⟨⟨⟩⟩
  exact ⟨hdenotes, (held_eq_some.mp (hdenotes.read?.symm.trans h)).1⟩

/-! ### Units -/

/-- The units have the digits of the number. -/
theorem exists_units (x : Decimal) :
    ∃ n : ℤ, |n| = x.coefficient ∧ units x = n * 10 ^ (x.exponent + 18) := by
  have htoken : (unitsPerToken : ℚ) = 10 ^ (18 : ℤ) := by
    rw [unitsPerToken, Nat.cast_pow, Nat.cast_ofNat]
    rfl
  have hmagnitude : x.magnitude * unitsPerToken = x.coefficient * 10 ^ (x.exponent + 18) := by
    rw [htoken, magnitude, mul_assoc, ← zpow_add₀ (by norm_num)]
  rw [units, value]
  split_ifs with hsign
  · refine ⟨-x.coefficient, by rw [abs_neg, Nat.abs_cast], ?_⟩
    rw [neg_mul, hmagnitude, Int.cast_neg, Int.cast_natCast, neg_mul]
  · exact ⟨x.coefficient, Nat.abs_cast _, by rw [hmagnitude, Int.cast_natCast]⟩

theorem abs_units (x : Decimal) : |units x| = x.coefficient * 10 ^ (x.exponent + 18) := by
  obtain ⟨n, hn, hunits⟩ := exists_units x
  have hunit : (0 : ℚ) < 10 ^ (x.exponent + 18) := by positivity
  have hcast : (|(n : ℚ)|) = x.coefficient := by exact_mod_cast hn
  rw [hunits, abs_mul, hcast, abs_of_pos hunit]

theorem units_eq_zero : units x = 0 ↔ x.coefficient = 0 := by
  have hunit : (10 : ℚ) ^ (x.exponent + 18) ≠ 0 := by positivity
  rw [← abs_eq_zero, abs_units, mul_eq_zero_iff_right hunit, Nat.cast_eq_zero]

theorem two_mul_zpow_le {e f : ℤ} (h : e < f) : 2 * (10 : ℚ) ^ e ≤ 10 ^ f := by
  have hstep : (10 : ℚ) ^ (e + 1) ≤ 10 ^ f := zpow_le_zpow_right₀ (by norm_num) h
  have hpos : (0 : ℚ) < 10 ^ e := by positivity
  rw [zpow_add_one₀ (by norm_num)] at hstep
  linarith

/-! ### Answers -/

theorem units_eq (x : Decimal) : (x.product ⟨false, unitsPerToken, 0⟩).value = units x := by
  have htoken : (⟨false, unitsPerToken, 0⟩ : Decimal).value = unitsPerToken := by
    show (unitsPerToken : ℚ) * 10 ^ (0 : ℤ) = _
    rw [zpow_zero, mul_one]
  rw [value_product, htoken, units]

/-- What is whole is the answer, if it is not negative. -/
theorem settles_ok {y : Decimal} (fits : |wide.rounded v| < 10 ^ (wide.maxExponent + 1))
    (hy : y.value = wide.rounded v) (hmagnitude : y.magnitude = |wide.rounded v|) :
    Settles given v (if !y.isWhole then .error (.fraction given)
      else if y.negative ∧ y.coefficient ≠ 0 then .error .negative else .ok y.wholePart) := by
  by_cases hwhole : y.isWhole = true
  · rw [hwhole, Bool.not_true, if_neg Bool.false_ne_true]
    by_cases hnegative : y.negative = true ∧ y.coefficient ≠ 0
    · rw [if_pos hnegative]
      refine .negative fits ?_
      rw [← hy, value, if_pos hnegative.1, neg_lt_zero]
      exact magnitude_pos hnegative.2
    · rw [if_neg hnegative]
      refine .units fits ?_
      rw [← hy, value, wholePart_of_isWhole hwhole]
      split_ifs with hsign
      · have hzero : y.coefficient = 0 := not_not.mp fun h => hnegative ⟨hsign, h⟩
        rw [magnitude_eq_zero.mpr hzero, neg_zero]
      · rfl
  · have hnot : (!y.isWhole) = true := by
      rw [Bool.not_eq_true']
      exact Bool.eq_false_iff.mpr hwhole
    rw [if_pos hnot]
    refine .fraction fits ?_
    rwa [← hmagnitude, ← isWhole_iff]

/-- A number that can be read settles by its rounded units. -/
theorem settles (h : DecimalValue.read? given.display = some (.finite x)) :
    Settles given (units x) (parse given) := by
  have hfinish := Context.finishes Context.proper_wide (x.product ⟨false, unitsPerToken, 0⟩)
  have habs := Context.abs_rounded_value wide (x.product ⟨false, unitsPerToken, 0⟩)
  rw [units_eq] at habs
  -- only the end of the product matters: to compute it takes the checker too deep
  obtain ⟨product, hproduct⟩ : ∃ product, Decimal.mul wide = product := ⟨_, rfl⟩
  rw [← mul_eq, hproduct] at hfinish
  unfold parse
  rw [h, hproduct]
  dsimp only
  generalize product x ⟨false, unitsPerToken, 0⟩ = answer at hfinish ⊢
  cases hfinish with
  | overflow large =>
    rw [← habs] at large
    exact .overflow large
  | @ok y fits sign magnitude =>
    have hvalue := Context.value_eq_rounded sign magnitude
    rw [units_eq] at hvalue
    rw [← habs] at fits magnitude
    exact settles_ok fits hvalue magnitude

-- Of the integer's eighty-one digits the last one is lost.
example : (parse (.int (10 ^ 80 + 1))).toOption = some (10 ^ 98) := by decide +kernel

theorem parse_of_none (hread : DecimalValue.read? given.display = none) :
    parse given = .error (.invalid given) := by
  unfold parse
  rw [hread]

theorem parse_of_not_inRange (hx : Denotes given x) (hrange : ¬ x.InRange) :
    parse given = .error (.invalid given) := by
  refine parse_of_none ?_
  rw [hx.read?, Option.eq_none_iff_forall_not_mem]
  exact fun v hv => hrange (held_eq_some.mp hv).1

/-! ### Slips -/

theorem not_slips (fits : |wide.rounded v| < 10 ^ (wide.maxExponent + 1))
    (h : ∀ n : ℕ, wide.rounded v ≠ n) : ¬ Slips v := by
  rintro (large | ⟨n, whole, -⟩)
  · exact absurd large (not_le.mpr fits)
  · exact h n whole

theorem slips_iff_of_whole {n : ℕ} (fits : |wide.rounded v| < 10 ^ (wide.maxExponent + 1))
    (whole : wide.rounded v = n) : Slips v ↔ v ≠ n := by
  constructor
  · rintro (large | ⟨m, hm, hne⟩)
    · exact absurd large (not_le.mpr fits)
    · rwa [← whole, hm]
  · exact fun hne => .inr ⟨n, whole, hne⟩

theorem not_whole_of_broken (broken : ¬ ∃ n : ℕ, |wide.rounded v| = n) (n : ℕ) :
    wide.rounded v ≠ n := by
  intro whole
  exact broken ⟨n, by rw [whole, abs_of_nonneg n.cast_nonneg]⟩

theorem not_whole_of_neg (below : wide.rounded v < 0) (n : ℕ) : wide.rounded v ≠ n := by
  intro whole
  rw [whole] at below
  exact absurd below (not_lt.mpr n.cast_nonneg)

/-! ### Realistic amounts -/

theorem eq_zero_of_small {u : ℚ} {n : ℕ} (hu : u = n) (hsmall : |u| < 1) : n = 0 := by
  rw [hu, Nat.abs_cast] at hsmall
  exact Nat.lt_one_iff.mp (by exact_mod_cast hsmall)

namespace Realistic

variable {l : Literal}

theorem coefficient_lt (h : Realistic l) : l.decimal.coefficient < 10 ^ wide.digits :=
  (numberOf_lt l.digits).trans_le (Nat.pow_le_pow_right (by decide) h.digits)

theorem exponent_le (h : Realistic l) : l.decimal.exponent ≤ 100000 := by
  have hpower := (abs_le.mp h.power).2
  show powerValue l.power - _ ≤ _
  omega

theorem inRange_iff (h : Realistic l) : l.decimal.InRange ↔ DecimalValue.minLast ≤ l.decimal.exponent := by
  refine ⟨fun hrange => hrange.last, fun hlast => ⟨?_, hlast⟩⟩
  have hdigits : digitCount l.decimal.coefficient ≤ 80 :=
    (digitCount_le_iff (by decide)).mpr h.coefficient_lt
  have hexponent := h.exponent_le
  rw [adjusted, DecimalValue.maxAdjusted]
  omega

theorem abs_units_lt (h : Realistic l) {e : ℤ} (he : l.decimal.exponent + 98 ≤ e) :
    |units l.decimal| < 10 ^ e := by
  have hcoefficient : (l.decimal.coefficient : ℚ) < 10 ^ (80 : ℤ) := by
    exact_mod_cast h.coefficient_lt
  have hunit : (0 : ℚ) < 10 ^ (l.decimal.exponent + 18) := by positivity
  calc |units l.decimal| = l.decimal.coefficient * 10 ^ (l.decimal.exponent + 18) := abs_units _
    _ < 10 ^ (80 : ℤ) * 10 ^ (l.decimal.exponent + 18) := mul_lt_mul_of_pos_right hcoefficient hunit
    _ = 10 ^ (l.decimal.exponent + 98) := by
      rw [← zpow_add₀ (by norm_num)]
      congr 1
      omega
    _ ≤ 10 ^ e := zpow_le_zpow_right₀ (by norm_num) he

/-- The units are kept, or they are next to nothing and stay so. -/
theorem rounded_units (h : Realistic l) : wide.rounded (units l.decimal) = units l.decimal ∨
    (|units l.decimal| < 1 ∧ |wide.rounded (units l.decimal)| < 1) := by
  obtain ⟨n, hn, hunits⟩ := exists_units l.decimal
  have hshort : |n| < 10 ^ wide.digits := by
    rw [hn]
    exact_mod_cast h.coefficient_lt
  rcases Context.rounded_of_short hunits hshort with hself | ⟨hplace, hsmall⟩
  · exact .inl hself
  · have hhalf := Context.abs_rounded_sub_le wide (units l.decimal)
    have htiny : (10 : ℚ) ^ wide.tiny ≤ 10 ^ (-1 : ℤ) := zpow_le_zpow_right₀ (by norm_num) (by decide)
    have hlow : |units l.decimal| < 10 ^ (-1 : ℤ) :=
      hsmall.trans_le (zpow_le_zpow_right₀ (by norm_num) (by decide))
    have htenth : (10 : ℚ) ^ (-1 : ℤ) = 1 / 10 := by norm_num
    rw [hplace] at hhalf
    rw [htenth] at htiny hlow
    have htriangle := abs_sub_abs_le_abs_sub (wide.rounded (units l.decimal)) (units l.decimal)
    exact .inr ⟨by linarith, by linarith⟩

theorem fits (h : Realistic l) :
    |wide.rounded (units l.decimal)| < 10 ^ (wide.maxExponent + 1) := by
  rcases h.rounded_units with hself | ⟨-, hsmall⟩
  · have hexponent := h.exponent_le
    have hmax : wide.maxExponent = 999999 := rfl
    rw [hself]
    exact h.abs_units_lt (by omega)
  · refine hsmall.trans_le ?_
    rw [← zpow_zero (10 : ℚ)]
    exact zpow_le_zpow_right₀ (by norm_num) (by decide)

theorem rounded_of_whole (h : Realistic l) {n : ℕ} (hn : units l.decimal = n) :
    wide.rounded (units l.decimal) = n := by
  rcases h.rounded_units with hself | ⟨hsmall, -⟩
  · rw [hself, hn]
  · rw [hn, eq_zero_of_small hn hsmall, Nat.cast_zero, Context.rounded_zero]

/-- Units slip only where they are rounded to nothing. -/
theorem slips_iff (h : Realistic l) : Slips (units l.decimal) ↔
    units l.decimal ≠ 0 ∧ 2 * |units l.decimal| ≤ 10 ^ wide.tiny := by
  have hnothing : wide.rounded (units l.decimal) = 0 ↔ 2 * |units l.decimal| ≤ 10 ^ wide.tiny :=
    Context.rounded_eq_zero_iff (by decide)
  rw [← hnothing]
  constructor
  · rintro (large | ⟨n, whole, hne⟩)
    · exact absurd large (not_le.mpr h.fits)
    · rcases h.rounded_units with hself | ⟨-, hsmall⟩
      · exact absurd (hself.symm.trans whole) hne
      · obtain rfl := eq_zero_of_small whole hsmall
        rw [Nat.cast_zero] at whole hne
        exact ⟨hne, whole⟩
  · rintro ⟨hne, hzero⟩
    exact .inr ⟨0, by rw [hzero, Nat.cast_zero], by rwa [Nat.cast_zero]⟩

end Realistic

theorem scales_iff_not_slips (hsettles : Settles given v r)
    (fits : |wide.rounded v| < 10 ^ (wide.maxExponent + 1))
    (hwhole : ∀ n : ℕ, v = n → wide.rounded v = n) : Scales v r ↔ ¬ Slips v := by
  have hrefused {fault : AmountFault} (hsort : fault.sort = .value)
      (hnot : ∀ n : ℕ, wide.rounded v ≠ n) : Scales v (.error fault) ↔ ¬ Slips v := by
    refine iff_of_true ⟨hsort, ?_⟩ (not_slips fits hnot)
    rintro ⟨n, hn⟩
    exact hnot n (hwhole n hn)
  cases hsettles with
  | overflow large => exact absurd large (not_le.mpr fits)
  | fraction _ broken => exact hrefused rfl (not_whole_of_broken broken)
  | negative _ below => exact hrefused rfl (not_whole_of_neg below)
  | @units n _ whole =>
    rw [slips_iff_of_whole fits whole, not_not, Scales, Int.cast_natCast]
    exact ⟨fun h => h.2.symm, fun h => ⟨n.cast_nonneg, h.symm⟩⟩

variable {t : Text} {l : Literal}

/-- A realistic literal is scaled to base units unless it is missed. -/
theorem scales_iff_not_misses (h : Spells t l) (hl : Realistic l) :
    Scales (units l.decimal) (parse (.text t)) ↔ ¬ Misses l.decimal := by
  have hx : Denotes (.text t) l.decimal := .text h
  by_cases hlast : DecimalValue.minLast ≤ l.decimal.exponent
  · have hrange := hl.inRange_iff.mpr hlast
    have hsettles := settles (hx.read?_of_inRange hrange)
    have hmisses : Misses l.decimal ↔ Slips (units l.decimal) := by
      rw [hl.slips_iff, Misses, ne_eq, ne_eq, units_eq_zero]
      constructor
      · rintro (⟨-, hlow⟩ | ⟨hne, -, hsmall⟩)
        · exact absurd hlast (not_le.mpr hlow)
        · exact ⟨hne, hsmall⟩
      · rintro ⟨hne, hsmall⟩
        exact .inr ⟨hne, hlast, hsmall⟩
    rw [hmisses]
    exact scales_iff_not_slips hsettles hl.fits fun n hn => hl.rounded_of_whole hn
  · -- such a text is refused, which is right for all it may spell but zero
    have hparse := parse_of_not_inRange hx fun hrange => hlast hrange.last
    have hsmall : |units l.decimal| < 1 := by
      have hmin : DecimalValue.minLast = -1999999999999999997 := rfl
      rw [← zpow_zero (10 : ℚ)]
      exact hl.abs_units_lt (by omega)
    have hmisses : Misses l.decimal ↔ ∃ n : ℕ, units l.decimal = n := by
      constructor
      · rintro (⟨hzero, -⟩ | ⟨-, hrange, -⟩)
        · exact ⟨0, by rw [units_eq_zero.mpr hzero, Nat.cast_zero]⟩
        · exact absurd hrange hlast
      · rintro ⟨n, hn⟩
        have hzero : units l.decimal = 0 := by
          rw [hn, eq_zero_of_small hn hsmall, Nat.cast_zero]
        exact .inl ⟨units_eq_zero.mp hzero, not_le.mp hlast⟩
    rw [hmisses, hparse]
    exact ⟨fun hscales => hscales.2, fun hnot => ⟨rfl, hnot⟩⟩

/-- Whole base units are given back, however they are written. -/
theorem parse_of_whole (h : Spells t l) (hl : Realistic l) {n : ℕ} (hn : units l.decimal = n)
    (hzero : n = 0 → DecimalValue.minLast ≤ l.decimal.exponent) : parse (.text t) = .ok n := by
  have hmisses : ¬ Misses l.decimal := by
    rintro (⟨hcoefficient, hlow⟩ | ⟨hcoefficient, -, hsmall⟩)
    · rw [units_eq_zero.mpr hcoefficient] at hn
      exact absurd (hzero (by exact_mod_cast hn.symm)) (not_le.mpr hlow)
    · have hpos : 1 ≤ n := by
        refine Nat.one_le_iff_ne_zero.mpr ?_
        rintro rfl
        exact hcoefficient (units_eq_zero.mp (by rw [hn, Nat.cast_zero]))
      have hcast : (1 : ℚ) ≤ n := by exact_mod_cast hpos
      have htiny : (10 : ℚ) ^ wide.tiny ≤ 10 ^ (0 : ℤ) := zpow_le_zpow_right₀ (by norm_num) (by decide)
      rw [hn, Nat.abs_cast] at hsmall
      rw [zpow_zero] at htiny
      linarith
  have hscales := (scales_iff_not_misses h hl).mpr hmisses
  generalize parse (.text t) = r at hscales ⊢
  cases r with
  | error fault => exact absurd ⟨n, hn⟩ hscales.2
  | ok m =>
    have heq : (m : ℚ) = n := hscales.2.trans hn
    have hm : m = n := by exact_mod_cast heq
    rw [hm]

/-- The literal `0.5`. -/
def half : Literal := ⟨none, [0], some [5], none, by decide⟩

theorem realistic_half : Realistic half := ⟨by decide, by decide⟩

theorem units_half : units half.decimal = (5 * 10 ^ 17 : ℕ) := by
  have hvalue : half.decimal.value = 5 / 10 := by
    show ((5 : ℕ) : ℚ) * 10 ^ (-1 : ℤ) = _
    norm_num
  have htoken : (unitsPerToken : ℚ) = 10 ^ 18 := by
    rw [unitsPerToken]
    norm_num
  rw [units, hvalue, htoken]
  norm_num

/-- A realistic literal is scaled to base units unless it is missed, and whole base units are given back
however they are written. -/
theorem parse_realistic (h : Spells t l) (hl : Realistic l) :
    (Scales (units l.decimal) (parse (.text t)) ↔ ¬ Misses l.decimal) ∧
      ∀ n : ℕ, units l.decimal = n → (n = 0 → DecimalValue.minLast ≤ l.decimal.exponent) →
        parse (.text t) = .ok n :=
  ⟨scales_iff_not_misses h hl, fun _ hn hzero => parse_of_whole h hl hn hzero⟩

theorem parse_realistic_half : Spells half.text half ∧ Realistic half ∧
    parse (.text half.text) = .ok (5 * 10 ^ 17) :=
  ⟨half.spells_text, realistic_half,
    (parse_realistic half.spells_text realistic_half).2 _ units_half (by decide)⟩

/-- A one after many zeros, and a power below as far as it may. -/
def farOne (zeros : Nat) : Literal :=
  ⟨none, [0], some (List.replicate zeros 0 ++ [1]), some ⟨false, some true, [1, 0, 0, 0, 0, 0], by decide⟩,
    by simp⟩

theorem dropWhile_farOne (zeros : Nat) : (farOne zeros).digits.dropWhile (· = 0) = [1] := by
  show (0 :: (List.replicate zeros 0 ++ [1])).dropWhile (fun d : Fin 10 => decide (d = 0)) = [1]
  rw [List.dropWhile_cons_of_pos (by decide), List.dropWhile_append_of_pos]
  · rfl
  · intro d hd
    exact decide_eq_true (List.eq_of_mem_replicate hd)

theorem realistic_farOne (zeros : Nat) : Realistic (farOne zeros) := by
  refine ⟨?_, ?_⟩
  · rw [dropWhile_farOne]
    decide
  · show |(-(numberOf [1, 0, 0, 0, 0, 0] : ℕ) : ℤ)| ≤ 100000
    decide

theorem decimal_farOne (zeros : Nat) : (farOne zeros).decimal = ⟨false, 1, -100001 - zeros⟩ := by
  have hcoefficient : numberOf (farOne zeros).digits = 1 := by
    have hzero : numberOf (0 :: List.replicate zeros 0) = 0 := by
      have hlt := numberOf_lt (List.replicate (zeros + 1) 0)
      have hnil : (List.replicate (zeros + 1) (0 : Fin 10)).dropWhile (· = 0) = [] :=
        List.dropWhile_eq_nil_iff.mpr fun d hd => decide_eq_true (List.eq_of_mem_replicate hd)
      rw [hnil] at hlt
      exact Nat.lt_one_iff.mp hlt
    show numberOf (0 :: List.replicate zeros 0 ++ [1]) = 1
    rw [numberOf_append, hzero]
    rfl
  have hexponent : powerValue (farOne zeros).power - ((farOne zeros).fraction.getD []).length =
      -100001 - zeros := by
    show -100000 - ((List.replicate zeros (0 : Fin 10) ++ [1]).length : ℤ) = _
    rw [List.length_append, List.length_replicate, List.length_singleton]
    push_cast
    omega
  rw [Literal.decimal, hcoefficient, hexponent]
  rfl

/-- Far behind the point a realistic number is answered with nothing. -/
theorem far_one_not_scaled : Realistic (farOne 900100) ∧
    ¬ Scales (units (farOne 900100).decimal) (parse (.text (farOne 900100).text)) := by
  have hrealistic := realistic_farOne 900100
  refine ⟨hrealistic, ?_⟩
  rw [scales_iff_not_misses (farOne 900100).spells_text hrealistic, not_not, decimal_farOne]
  refine .inr ⟨by decide, by decide, ?_⟩
  rw [abs_units, Nat.cast_one, one_mul]
  exact two_mul_zpow_le (by decide)

/-! ### Faithful answers -/

/-- A number is answered faithfully unless its units slip. -/
theorem faithful_of_denotes (hx : Denotes given x) (hrange : x.InRange) :
    Faithful given ↔ ¬ Slips (units x) := by
  have hsettles := settles (hx.read?_of_inRange hrange)
  unfold Faithful
  generalize parse given = r at hsettles
  cases hsettles with
  | overflow large => exact iff_of_false nofun (not_not.mpr (.inl large))
  | fraction fits broken => exact iff_of_true rfl (not_slips fits (not_whole_of_broken broken))
  | negative fits below => exact iff_of_true rfl (not_slips fits (not_whole_of_neg below))
  | @units n fits whole =>
    rw [slips_iff_of_whole fits whole, not_not]
    constructor
    · rintro ⟨-, hexact⟩
      rw [← hexact x hx, Int.cast_natCast]
    · intro hexact
      refine ⟨⟨x, hx⟩, fun y hy => ?_⟩
      rw [hx.unique hy hrange, hexact, Int.cast_natCast]

theorem read?_of_loses (h : Loses given) :
    DecimalValue.read? given.display = some (.infinite false) ∨
      ∃ x, DecimalValue.read? given.display = some (.finite x) := by
  rcases h with hinfinity | ⟨x, hx, hrange, -⟩
  · exact .inl (read?_infinite.mpr hinfinity)
  · exact .inr ⟨x, hx.read?_of_inRange hrange⟩

/-- What is read as neither a number nor the positive infinity is not lost. -/
theorem faithful_of_refused {read : Option DecimalValue} {fault : AmountFault}
    (hread : DecimalValue.read? given.display = read) (hinfinite : read ≠ some (.infinite false))
    (hfinite : ∀ x, read ≠ some (.finite x)) (hparse : parse given = .error fault)
    (hsort : fault.sort = .value) : Faithful given ↔ ¬ Loses given := by
  refine iff_of_true ?_ fun hloses => ?_
  · rw [Faithful, hparse]
    exact hsort
  · rcases read?_of_loses hloses with h | ⟨x, h⟩
    · exact hinfinite (hread.symm.trans h)
    · exact hfinite x (hread.symm.trans h)

/-- An amount is answered faithfully unless it is lost. -/
theorem faithful_iff_not_loses (hgiven : given.kind = .text ∨ given.kind = .int) :
    Faithful given ↔ ¬ Loses given := by
  cases hread : DecimalValue.read? given.display with
  | none => exact faithful_of_refused hread nofun nofun (parse_of_none hread) rfl
  | some v =>
    cases v with
    | finite x =>
      obtain ⟨hx, hrange⟩ := denotes_of_read? hgiven hread
      rw [faithful_of_denotes hx hrange, not_iff_not]
      constructor
      · exact fun hslips => .inr ⟨x, hx, hrange, hslips⟩
      · rintro (hinfinity | ⟨y, hy, hyrange, hslips⟩)
        · cases hread.symm.trans (read?_infinite.mpr hinfinity)
        · rwa [hx.unique hy hrange] at hslips
    | infinite negative =>
      have hparse : parse given = .error (if negative then .negative else .infinite) := by
        unfold parse
        rw [hread]
      cases negative with
      | true => exact faithful_of_refused hread nofun nofun hparse rfl
      | false =>
        refine iff_of_false ?_ (not_not.mpr (.inl (read?_infinite.mp hread)))
        rw [Faithful, hparse]
        nofun
    | quietNan =>
      have hparse : parse given = .error (.fraction given) := by
        unfold parse
        rw [hread]
      exact faithful_of_refused hread nofun nofun hparse rfl
    | signalingNan =>
      have hparse : parse given = .error (.invalid given) := by
        unfold parse
        rw [hread]
      exact faithful_of_refused hread nofun nofun hparse rfl

theorem faithful_iff_not_loses_half : (Value.text half.text).kind = .text ∧
    Faithful (.text half.text) ∧ ¬ Loses (.text half.text) := by
  have hx : Denotes (.text half.text) half.decimal := .text half.spells_text
  have hrange : half.decimal.InRange := realistic_half.inRange_iff.mpr (by decide)
  have hparse := parse_of_whole half.spells_text realistic_half units_half (by decide)
  have hfaithful : Faithful (.text half.text) := by
    rw [Faithful, hparse]
    refine ⟨⟨_, hx⟩, fun y hy => ?_⟩
    rw [hx.unique hy hrange, units_half, Int.cast_natCast]
  exact ⟨rfl, hfaithful, (faithful_iff_not_loses (.inl rfl)).mp hfaithful⟩

/-- What is far too small is answered with nothing. -/
theorem tiny_not_faithful : ¬ Faithful (.text "1E-1000200") := by
  have hread : DecimalValue.read? (Value.text "1E-1000200").display =
      some (.finite ⟨false, 1, -1000200⟩) := by decide +kernel
  obtain ⟨hx, hrange⟩ := denotes_of_read? (.inl rfl) hread
  rw [faithful_of_denotes hx hrange, not_not]
  have hsmall : 2 * |units ⟨false, 1, -1000200⟩| ≤ 10 ^ wide.tiny := by
    rw [abs_units, Nat.cast_one, one_mul]
    exact two_mul_zpow_le (by decide)
  refine .inr ⟨0, ?_, ?_⟩
  · rw [Nat.cast_zero]
    exact (Context.rounded_eq_zero_iff (by decide)).mpr hsmall
  · rw [Nat.cast_zero, ne_eq, units_eq_zero]
    decide

end Amount

end LedgerWire
