import LedgerWire.Number.Power

/-!
# 64-bit binary floating point

The values of the format themselves, with no operations of the machine: a finite one is
`± significand · 2 ^ exponent / 2 ^ 1074`. `ofRatio` and `ofDecimal` round to the nearest value, a
tie going to the even significand; a number compares with an integer exactly.
-/

namespace LedgerWire

namespace Binary64

/-- A finite number, in its one normal spelling: below `2 ^ 52` the exponent is zero. Both zeros
have a sign. -/
structure Finite where
  negative : Bool
  significand : Nat
  exponent : Nat
  significand_lt : significand < 2 ^ 53
  normal : 2 ^ 52 ≤ significand ∨ exponent = 0
  exponent_le : exponent ≤ 2045
  deriving DecidableEq, Repr

/-- The magnitude in units of `2 ^ -1074`. -/
def Finite.scaled (x : Finite) : Nat := x.significand * 2 ^ x.exponent

/-- The number in units of `2 ^ -1074`. -/
def Finite.toScaledInt (x : Finite) : Int := if x.negative then -(x.scaled : Int) else x.scaled

end Binary64

inductive Binary64
  | nan
  | infinite (negative : Bool)
  | finite (x : Binary64.Finite)
  deriving DecidableEq, Repr

namespace Binary64

/-- The integer nearest to `num / den`, the even one of two. -/
def roundHalfEven (num den : Nat) : Nat :=
  let q := num / den
  let r := num % den
  if 2 * r < den then q else if den < 2 * r then q + 1 else q + q % 2

/-- `± significand · 2 ^ exponent / 2 ^ 1074`, or an infinity where that is too large. -/
def make (negative : Bool) (significand exponent : Nat) : Binary64 :=
  if h : significand < 2 ^ 53 ∧ (2 ^ 52 ≤ significand ∨ exponent = 0) ∧ exponent ≤ 2045 then
    .finite ⟨negative, significand, exponent, h.1, h.2.1, h.2.2⟩
  else .infinite negative

def zero (negative : Bool) : Binary64 := make negative 0 0

/-- The value nearest to `± num / den`. -/
def ofRatio (negative : Bool) (num den : Nat) : Binary64 :=
  let exponent := (num * 2 ^ 1074 / den).log2 - 52
  let significand := roundHalfEven (num * 2 ^ 1074) (den * 2 ^ exponent)
  if significand = 2 ^ 53 then make negative (2 ^ 52) (exponent + 1)
  else make negative significand exponent

/-- The value nearest to a natural number. -/
def ofNat (n : Nat) : Binary64 := ofRatio false n 1

/-- The value nearest to an integer. -/
def ofInt (n : Int) : Binary64 := ofRatio (decide (n < 0)) n.natAbs 1

/-- The value nearest to `± digits · 10 ^ exponent`. Far outside the range of the format the answer
is known from the magnitude alone. -/
def ofDecimal (negative : Bool) (digits : Nat) (exponent : Int) : Binary64 :=
  let magnitude := (Nat.toDigits 10 digits).length + exponent
  if digits = 0 || magnitude < -330 then zero negative
  else if 310 < magnitude then .infinite negative
  else if 0 ≤ exponent then ofRatio negative (digits * 10 ^ exponent.toNat) 1
  else ofRatio negative digits (10 ^ (-exponent).toNat)

/-- How the value lies to an integer; a value that is no number lies nowhere. -/
def compareInt (x : Binary64) (n : Int) : Option Ordering :=
  match x with
  | .nan => none
  | .infinite negative => some (if negative then .lt else .gt)
  | .finite x => some (compare x.toScaledInt (n * 2 ^ 1074))

/-- How two values lie to each other; the two zeros are equal. -/
def compareWith (x y : Binary64) : Option Ordering :=
  match x, y with
  | .nan, _ => none
  | _, .nan => none
  | .infinite a, .infinite b => some (if a = b then .eq else if a then .lt else .gt)
  | .infinite a, .finite _ => some (if a then .lt else .gt)
  | .finite _, .infinite b => some (if b then .gt else .lt)
  | .finite x, .finite y => some (compare x.toScaledInt y.toScaledInt)

/-- The integer equal to the value, if there is one. -/
def toInt? : Binary64 → Option Int
  | .finite x => if x.scaled % 2 ^ 1074 = 0 then some (x.toScaledInt / 2 ^ 1074) else none
  | _ => none

/-- The integer part of a finite value, toward zero. -/
def Finite.truncate (x : Finite) : Int := x.toScaledInt.tdiv (2 ^ 1074)

end Binary64

end LedgerWire
