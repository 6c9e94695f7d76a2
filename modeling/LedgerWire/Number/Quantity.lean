import LedgerWire.Number.Arithmetic
import LedgerWire.Value.Basic

/-!
# Numbers of two kinds

A number that is an integer, of any size, or a floating-point number. Integers are calculated with
exactly. As soon as a floating-point number takes part, integers are rounded to one, and that fails
for an integer out of its range. Comparison is exact.
-/

namespace LedgerWire

inductive Quantity
  | int (n : Int)
  | float (x : Binary64)
  deriving DecidableEq, Repr

namespace Quantity

inductive Fault
  /-- An integer that no floating-point number is near to. -/
  | tooLarge
  deriving DecidableEq, Repr

def Fault.message : Fault → Text
  | .tooLarge => "int too large to convert to float"

def toValue : Quantity → Value
  | .int n => .int n
  | .float x => .float x

/-- An integer that was rounded is no infinity. -/
def inRange : Binary64 → Except Fault Binary64
  | .infinite _ => .error .tooLarge
  | x => .ok x

/-- The nearest floating-point number. -/
def toFloat : Quantity → Except Fault Binary64
  | .int n => inRange (Binary64.ofInt n)
  | .float x => .ok x

/-- An operation, given for integers and for floating-point numbers. -/
def combine (exact : Int → Int → Int) (rounded : Binary64 → Binary64 → Binary64) :
    Quantity → Quantity → Except Fault Quantity
  | .int m, .int n => .ok (.int (exact m n))
  | a, b => do
    let x ← a.toFloat
    let y ← b.toFloat
    pure (.float (rounded x y))

def add : Quantity → Quantity → Except Fault Quantity := combine (· + ·) Binary64.add

def mul : Quantity → Quantity → Except Fault Quantity := combine (· * ·) Binary64.mul

/-- The quotient to the floor, for a divisor that is not zero. -/
def floorDiv : Quantity → Quantity → Except Fault Quantity := combine Int.fdiv Binary64.floorDiv

/-- How two numbers lie to each other. -/
def compareWith : Quantity → Quantity → Option Ordering
  | .int m, .int n => some (compare m n)
  | .int m, .float y => (y.compareInt m).map Ordering.swap
  | .float x, .int n => x.compareInt n
  | .float x, .float y => x.compareWith y

def less (a b : Quantity) : Bool := a.compareWith b == some .lt

def isZero (a : Quantity) : Bool := a.compareWith (.int 0) == some .eq

/-- The lesser number; the first unless the second is less. -/
def least (a b : Quantity) : Quantity := if b.less a then b else a

end Quantity

/-- The number that a value is. -/
def Value.toQuantity? : Value → Option Quantity
  | .float x => some (.float x)
  | v => v.toInt?.map .int

end LedgerWire
