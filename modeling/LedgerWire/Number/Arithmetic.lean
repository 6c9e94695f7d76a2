import LedgerWire.Number.Binary64

/-!
# Arithmetic of floating-point numbers

Sums, products and quotients are the exact ones, rounded to the nearest value. Division to the floor
takes the exact remainder off first, so its quotient is whole; a remainder counts with the sign of the
divisor.
-/

namespace LedgerWire

namespace Binary64

def isNegative : Binary64 → Bool
  | .nan => false
  | .infinite negative => negative
  | .finite x => x.negative

/-- Either zero. -/
def isZero : Binary64 → Bool
  | .finite x => x.significand == 0
  | _ => false

def neg : Binary64 → Binary64
  | .nan => .nan
  | .infinite negative => .infinite !negative
  | .finite x => .finite { x with negative := !x.negative }

/-- The sum. Numbers that cancel make the positive zero. -/
def add (x y : Binary64) : Binary64 :=
  match x, y with
  | .nan, _ => .nan
  | _, .nan => .nan
  | .infinite a, .infinite b => if a = b then .infinite a else .nan
  | .infinite a, .finite _ => .infinite a
  | .finite _, .infinite b => .infinite b
  | .finite x, .finite y =>
    let sum := x.toScaledInt + y.toScaledInt
    if sum = 0 then zero (x.negative && y.negative)
    else ofRatio (decide (sum < 0)) sum.natAbs (2 ^ 1074)

def sub (x y : Binary64) : Binary64 := x.add y.neg

def mul (x y : Binary64) : Binary64 :=
  match x, y with
  | .nan, _ => .nan
  | _, .nan => .nan
  | .finite x, .finite y =>
    ofRatio (x.negative != y.negative) (x.scaled * y.scaled) (2 ^ 2148)
  | x, y => if x.isZero || y.isZero then .nan else .infinite (x.isNegative != y.isNegative)

/-- The quotient, for a divisor that is not zero. -/
def div (x y : Binary64) : Binary64 :=
  match x, y with
  | .nan, _ => .nan
  | _, .nan => .nan
  | .infinite _, .infinite _ => .nan
  | .infinite a, .finite y => .infinite (a != y.negative)
  | .finite x, .infinite b => zero (x.negative != b)
  | .finite x, .finite y => ofRatio (x.negative != y.negative) x.scaled y.scaled

/-- What is left of `x` after taking `y` off as often as it fits, with the sign of `x`. It is exact. -/
def remainder (x y : Binary64) : Binary64 :=
  match x, y with
  | .finite x, .finite y =>
    if y.significand = 0 then .nan else ofRatio x.negative (x.scaled % y.scaled) (2 ^ 1074)
  | .finite x, .infinite _ => .finite x
  | _, _ => .nan

/-- The greatest whole number that is not greater. -/
def floor : Binary64 → Binary64
  | .finite x =>
    if x.significand = 0 then .finite x else ofInt (x.toScaledInt / 2 ^ 1074)
  | x => x

/-- The nearest whole number, and of two the smaller. -/
def snap (x : Binary64) : Binary64 :=
  let whole := x.floor
  if (x.sub whole).compareWith (ofRatio false 1 2) = some .gt then whole.add (ofInt 1) else whole

/-- The quotient to the floor, for a divisor that is not zero. -/
def floorDiv (x y : Binary64) : Binary64 :=
  let rest := x.remainder y
  let quotient := (x.sub rest).div y
  let quotient :=
    if !rest.isZero && y.isNegative != rest.isNegative then quotient.sub (ofInt 1) else quotient
  if quotient.isZero then zero (x.div y).isNegative else quotient.snap

end Binary64

end LedgerWire
