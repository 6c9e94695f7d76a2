import LedgerWire.Number.Binary64
import LedgerWire.Text.Basic

/-!
# The shortest decimal text of a floating-point number

A finite number is written with the fewest significant digits that read back as it, and among those
with the digits nearest to it. For a given count of digits only the two neighbours of the number on
that decimal grid can be nearest, so they alone are tried.
-/

namespace LedgerWire

namespace Binary64

/-- `digits · 10 ^ exponent`. -/
structure Digits where
  digits : Nat
  exponent : Int
  deriving DecidableEq, Repr

/-- The power of ten at or below `num / den`, for a positive ratio. -/
def decimalMagnitude (num den : Nat) : Int :=
  let guess : Int := (Nat.toDigits 10 num).length - (Nat.toDigits 10 den).length
  let reached := if 0 ≤ guess then den * 10 ^ guess.toNat ≤ num
    else den ≤ num * 10 ^ (-guess).toNat
  if reached then guess else guess - 1

/-- The digits without zeros at their end; `fuel` bounds their number. -/
def Digits.trimmed : (fuel : Nat) → Digits → Digits
  | 0, d => d
  | fuel + 1, d =>
    if d.digits % 10 = 0 ∧ d.digits ≠ 0 then trimmed fuel ⟨d.digits / 10, d.exponent + 1⟩ else d

/-- The digits of the grid `10 ^ exponent` that read back as the positive number `x`: the nearer
neighbour, or the even one of two equally near. -/
def Finite.onGrid? (x : Finite) (exponent : Int) : Option Digits :=
  let num := x.scaled * (if exponent < 0 then 10 ^ (-exponent).toNat else 1)
  let den := 2 ^ 1074 * (if exponent < 0 then 1 else 10 ^ exponent.toNat)
  let below := num / den
  let readsBack (d : Nat) : Bool := ofDecimal x.negative d exponent == .finite x
  match readsBack below, readsBack (below + 1) with
  | true, true => some ⟨roundHalfEven num den, exponent⟩
  | true, false => some ⟨below, exponent⟩
  | false, true => some ⟨below + 1, exponent⟩
  | false, false => none

/-- All digits of the number; every finite number has finitely many. -/
def Finite.allDigits (x : Finite) : Digits := ⟨x.scaled * 5 ^ 1074, -1074⟩

/-- The first grid with a hit, among those of `count`, `count + 1`, … digits. -/
def Finite.search (x : Finite) (magnitude : Int) : (left count : Nat) → Digits
  | 0, _ => x.allDigits
  | left + 1, count =>
    match x.onGrid? (magnitude - count + 1) with
    | some d => d
    | none => search x magnitude left (count + 1)

/-- The fewest digits that read back as `x`. Seventeen always suffice. -/
def Finite.shortest (x : Finite) : Digits :=
  if x.significand = 0 then ⟨0, 0⟩
  else
    let found := x.search (decimalMagnitude x.scaled (2 ^ 1074)) 17 1
    found.trimmed (Nat.toDigits 10 found.digits).length

/-- A text of `n` zeros. -/
def zeros (n : Nat) : Text := List.replicate n (CodePoint.ofChar '0')

/-- Digits are written out from the fourth place after the point up to sixteen places before it, with
at least one digit on either side; beyond that the point follows the first digit, and the exponent
has a sign and at least two digits. -/
def Digits.layout (d : Digits) : Text :=
  let ds := Text.ofNat d.digits
  let point : Int := ds.length + d.exponent
  if d.digits = 0 then "0.0"
  else if -4 < point ∧ point ≤ 16 then
    if point ≤ 0 then Text.join ["0.", zeros (-point).toNat, ds]
    else if ds.length ≤ point then Text.join [ds, zeros (point.toNat - ds.length), ".0"]
    else Text.join [ds.take point.toNat, ".", ds.drop point.toNat]
  else
    let mantissa := if ds.length = 1 then ds else Text.join [ds.take 1, ".", ds.drop 1]
    let power := Text.ofNat (point - 1).natAbs
    Text.join [mantissa, "e", if point - 1 < 0 then "-" else "+", zeros (2 - power.length), power]

/-- The text of a value. -/
def toText : Binary64 → Text
  | .nan => "nan"
  | .infinite negative => if negative then "-inf" else "inf"
  | .finite x => (if x.negative then ("-" : Text) else []) ++ x.shortest.layout

end Binary64

end LedgerWire
