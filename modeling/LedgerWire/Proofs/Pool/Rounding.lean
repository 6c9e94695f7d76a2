import LedgerWire.Pool.Basic
import Mathlib.Tactic.Linarith

/-!
# Quotes are rounded in favour of the pool

What a quote gives is a quotient to the floor. Multiplied out, it is never more than the exact share of
the reserve, and so never more than the reserve itself: the product of the reserves does not fall in a
swap, and neither a deposit nor a withdrawal takes from a share what it stands for.
-/

namespace LedgerWire

namespace Pool

theorem fdiv_mul_le (n : Int) {d : Int} (hd : 0 < d) : n.fdiv d * d ≤ n := by
  rw [Int.fdiv_eq_ediv_of_nonneg n hd.le]
  exact Int.ediv_mul_le n hd.ne'

/-! ### Swaps -/

variable {reserveIn amount : Int}

theorem output_of_pos (reserveOut : Int) (hin : 0 ≤ reserveIn) (ha : 0 < amount) :
    output reserveIn reserveOut amount = (reserveOut * amount).fdiv (reserveIn + amount) :=
  if_neg (by omega)

theorem output_mul_le (reserveOut : Int) (hin : 0 ≤ reserveIn) (ha : 0 < amount) :
    output reserveIn reserveOut amount * (reserveIn + amount) ≤ reserveOut * amount := by
  rw [output_of_pos reserveOut hin ha]
  exact fdiv_mul_le _ (by omega)

/-- What is given is there. -/
theorem output_le {reserveOut : Int} (hin : 0 ≤ reserveIn) (hout : 0 ≤ reserveOut) (ha : 0 < amount) :
    output reserveIn reserveOut amount ≤ reserveOut := by
  have hle : output reserveIn reserveOut amount * (reserveIn + amount) ≤
      reserveOut * (reserveIn + amount) :=
    (output_mul_le reserveOut hin ha).trans (Int.mul_le_mul_of_nonneg_left (by omega) hout)
  exact Int.le_of_mul_le_mul_right hle (by omega)

/-- The product of the reserves does not fall. -/
theorem product_le (reserveOut : Int) (hin : 0 ≤ reserveIn) (ha : 0 < amount) :
    reserveIn * reserveOut ≤
      (reserveIn + amount) * (reserveOut - output reserveIn reserveOut amount) := by
  have hgiven := output_mul_le reserveOut hin ha
  linarith [mul_comm reserveOut amount,
    mul_comm (output reserveIn reserveOut amount) (reserveIn + amount)]

/-! ### Deposits and withdrawals -/

variable {p : Pool} {amount0 amount1 : Int}

/-- A deposit into a pool with shares has a quote: no more shares than either amount is worth. -/
theorem liquidityShares_of_pos (h0 : 0 ≤ p.reserve0) (h1 : 0 ≤ p.reserve1)
    (held : 0 < p.totalShares) (ha0 : 0 ≤ amount0) (ha1 : 0 ≤ amount1) :
    ∃ shares, p.liquidityShares amount0 amount1 = .ok shares ∧ 0 ≤ shares ∧
      shares * p.reserve0 ≤ amount0 * p.totalShares ∧
      shares * p.reserve1 ≤ amount1 * p.totalShares := by
  have hpart0 : 0 ≤ amount0 * p.totalShares := Int.mul_nonneg ha0 held.le
  have hpart1 : 0 ≤ amount1 * p.totalShares := Int.mul_nonneg ha1 held.le
  unfold liquidityShares
  rw [if_neg held.ne']
  by_cases hempty : p.reserve0 = 0 ∨ p.reserve1 = 0
  · rw [if_pos hempty]
    exact ⟨0, rfl, le_refl 0, by simpa using hpart0, by simpa using hpart1⟩
  · rw [if_neg hempty]
    have hpos0 : 0 < p.reserve0 := by omega
    have hpos1 : 0 < p.reserve1 := by omega
    refine ⟨_, rfl, le_min (Int.fdiv_nonneg hpart0 h0) (Int.fdiv_nonneg hpart1 h1), ?_, ?_⟩
    · exact (Int.mul_le_mul_of_nonneg_right (min_le_left _ _) h0).trans (fdiv_mul_le _ hpos0)
    · exact (Int.mul_le_mul_of_nonneg_right (min_le_right _ _) h1).trans (fdiv_mul_le _ hpos1)

theorem withdrawal_mul_le (shares : Int) (held : 0 < p.totalShares) :
    (p.withdrawal shares).1 * p.totalShares ≤ shares * p.reserve0 ∧
      (p.withdrawal shares).2 * p.totalShares ≤ shares * p.reserve1 := by
  unfold withdrawal
  rw [if_neg held.ne']
  exact ⟨fdiv_mul_le _ held, fdiv_mul_le _ held⟩

/-- Shares are paid no more than they are worth. -/
theorem withdrawal_le_of_mul_le {shares : Int} (held : 0 < p.totalShares)
    (h0 : shares * p.reserve0 ≤ amount0 * p.totalShares)
    (h1 : shares * p.reserve1 ≤ amount1 * p.totalShares) :
    (p.withdrawal shares).1 ≤ amount0 ∧ (p.withdrawal shares).2 ≤ amount1 := by
  obtain ⟨hpaid0, hpaid1⟩ := withdrawal_mul_le shares held
  exact ⟨Int.le_of_mul_le_mul_right (hpaid0.trans h0) held,
    Int.le_of_mul_le_mul_right (hpaid1.trans h1) held⟩

/-- What is paid out is there. -/
theorem withdrawal_le {shares : Int} (h0 : 0 ≤ p.reserve0) (h1 : 0 ≤ p.reserve1) (held : 0 < p.totalShares)
    (hs : shares ≤ p.totalShares) :
    (p.withdrawal shares).1 ≤ p.reserve0 ∧ (p.withdrawal shares).2 ≤ p.reserve1 := by
  have hside {reserve : Int} (hr : 0 ≤ reserve) : shares * reserve ≤ reserve * p.totalShares := by
    rw [mul_comm reserve]
    exact Int.mul_le_mul_of_nonneg_right hs hr
  exact withdrawal_le_of_mul_le held (hside h0) (hside h1)

end Pool

end LedgerWire
