/-!
# Integer square roots
-/

namespace LedgerWire

/-- The greatest number whose square is at most `n`, for an `n` below `4 ^ fuel`. -/
def sqrtAux : (fuel n : Nat) → Nat
  | 0, _ => 0
  | fuel + 1, n =>
    let r := 2 * sqrtAux fuel (n / 4)
    if (r + 1) * (r + 1) ≤ n then r + 1 else r

/-- The greatest number whose square is at most `n`. -/
def squareRoot (n : Nat) : Nat := sqrtAux (n.log2 / 2 + 1) n

end LedgerWire
