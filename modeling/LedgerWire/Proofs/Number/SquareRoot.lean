import LedgerWire.Number.Power
import LedgerWire.Number.SquareRoot

/-!
# The root lies between two squares

`squareRoot_le` and `lt_squareRoot` say that the root is the greatest number whose square is at most the
argument. The root of a quarter, twice, is the root up to one unit.
-/

namespace LedgerWire

variable {n fuel : Nat}

/-- The square is at most the argument, and the next square is not. -/
theorem sqrtAux_bounds (h : n < 4 ^ fuel) :
    sqrtAux fuel n * sqrtAux fuel n ≤ n ∧ n < (sqrtAux fuel n + 1) * (sqrtAux fuel n + 1) := by
  induction fuel generalizing n with
  | zero => exact ⟨Nat.zero_le n, h⟩
  | succ fuel ih =>
    have hquarter : n / 4 < 4 ^ fuel := by
      rw [Nat.pow_succ] at h
      omega
    obtain ⟨hle, hlt⟩ := ih hquarter
    generalize hr : sqrtAux fuel (n / 4) = r at hle hlt
    have hlow : 2 * r * (2 * r) ≤ n := by
      have : 4 * (r * r) ≤ n := by omega
      calc 2 * r * (2 * r) = 4 * (r * r) := by grind
        _ ≤ n := this
    have hhigh : n < (2 * r + 2) * (2 * r + 2) := by
      have : n < 4 * ((r + 1) * (r + 1)) := by omega
      calc n < 4 * ((r + 1) * (r + 1)) := this
        _ = (2 * r + 2) * (2 * r + 2) := by grind
    have hstep : sqrtAux (fuel + 1) n =
        if (2 * r + 1) * (2 * r + 1) ≤ n then 2 * r + 1 else 2 * r := by
      rw [← hr]
      rfl
    rw [hstep]
    by_cases hodd : (2 * r + 1) * (2 * r + 1) ≤ n
    · rw [if_pos hodd]
      exact ⟨hodd, hhigh⟩
    · rw [if_neg hodd]
      exact ⟨hlow, Nat.not_le.mp hodd⟩

theorem lt_four_pow (n : Nat) : n < 4 ^ (n.log2 / 2 + 1) := by
  calc n < 2 ^ (n.log2 + 1) := Nat.lt_log2_self
    _ ≤ 2 ^ (2 * (n.log2 / 2 + 1)) := Nat.pow_le_pow_right (by decide) (by omega)
    _ = 4 ^ (n.log2 / 2 + 1) := Nat.pow_mul 2 2 _

theorem squareRoot_le (n : Nat) : squareRoot n * squareRoot n ≤ n := (sqrtAux_bounds (lt_four_pow n)).1

theorem lt_squareRoot (n : Nat) : n < (squareRoot n + 1) * (squareRoot n + 1) :=
  (sqrtAux_bounds (lt_four_pow n)).2

end LedgerWire
