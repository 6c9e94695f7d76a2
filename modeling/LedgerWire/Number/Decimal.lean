import LedgerWire.Number.Numeral

/-!
# Decimal arithmetic

Numbers `± coefficient · 10 ^ exponent` of which the exponent is kept: `2`, `2.0` and `2E+0` are
different spellings of one number. A context bounds the digits of a result and the magnitudes; results
are rounded to the nearest, a tie going to the even digit.
-/

namespace LedgerWire

structure Decimal where
  negative : Bool
  coefficient : Nat
  exponent : Int
  deriving DecidableEq, Repr

inductive DecimalFault
  | overflow
  | divisionByZero
  | divisionUndefined
  deriving DecidableEq, Repr

def DecimalFault.message : DecimalFault → Text
  | .overflow => "[<class 'decimal.Overflow'>]"
  | .divisionByZero => "[<class 'decimal.DivisionByZero'>]"
  | .divisionUndefined => "[<class 'decimal.DivisionUndefined'>]"

namespace Decimal

/-- The number of decimal digits, one for zero. -/
def digitCount (n : Nat) : Nat := (Nat.toDigits 10 n).length

/-- The power of ten of the first digit. -/
def adjusted (x : Decimal) : Int := x.exponent + digitCount x.coefficient - 1

/-- The bounds of a computation. -/
structure Context where
  digits : Nat
  maxExponent : Int
  minExponent : Int

namespace Context

/-- The least exponent of a number whose first digit stands as low as it may. -/
def tiny (ctx : Context) : Int := ctx.minExponent - ctx.digits + 1

/-- The computations that follow no rule of their own. -/
def standard : Context := ⟨28, 999999, -999999⟩

/-- The computations with amounts. -/
def wide : Context := { standard with digits := 80 }

/-- The coefficient without its last `count` digits, rounded. What is far below a half of the last
digit kept is nothing. -/
def dropDigits (coefficient : Nat) (count : Nat) : Nat :=
  if digitCount coefficient < count then 0
  else Binary64.roundHalfEven coefficient (10 ^ count)

/-- The number as far as the context can hold it. -/
def finish (ctx : Context) (x : Decimal) : Except DecimalFault Decimal :=
  if x.coefficient = 0 then
    .ok { x with exponent := max ctx.tiny (min ctx.maxExponent x.exponent) }
  else if ctx.maxExponent < x.adjusted then .error .overflow
  else if x.adjusted < ctx.minExponent ∧ x.exponent < ctx.tiny then
    let count := (ctx.tiny - x.exponent).toNat
    .ok { x with coefficient := dropDigits x.coefficient count, exponent := ctx.tiny }
  else
    let count := digitCount x.coefficient - ctx.digits
    if count = 0 then .ok x
    else
      let rounded := dropDigits x.coefficient count
      let y : Decimal := if rounded = 10 ^ ctx.digits
        then { x with coefficient := rounded / 10, exponent := x.exponent + count + 1 }
        else { x with coefficient := rounded, exponent := x.exponent + count }
      if ctx.maxExponent < y.adjusted then .error .overflow else .ok y

end Context

/-- The product, in a context. -/
def mul (ctx : Context) (x y : Decimal) : Except DecimalFault Decimal :=
  ctx.finish ⟨x.negative != y.negative, x.coefficient * y.coefficient, x.exponent + y.exponent⟩

/-- Drops zeros at the end of a coefficient while the exponent is below `ideal`. -/
def trimTo (ideal : Int) : (fuel : Nat) → (coefficient : Nat) → (exponent : Int) → Nat × Int
  | 0, c, e => (c, e)
  | fuel + 1, c, e =>
    if e < ideal ∧ c % 10 = 0 then trimTo ideal fuel (c / 10) (e + 1) else (c, e)

/-- The quotient, in a context. One digit more than the context holds is computed, and a remainder
moves it off a tie; an exact quotient is spelled with the difference of the exponents, if possible. -/
def div (ctx : Context) (x y : Decimal) : Except DecimalFault Decimal :=
  let negative := x.negative != y.negative
  let ideal := x.exponent - y.exponent
  if y.coefficient = 0 then
    .error (if x.coefficient = 0 then .divisionUndefined else .divisionByZero)
  else if x.coefficient = 0 then ctx.finish ⟨negative, 0, ideal⟩
  else
    let shift : Int :=
      digitCount y.coefficient - digitCount x.coefficient + (ctx.digits + 1 : Nat)
    let num := if 0 ≤ shift then x.coefficient * 10 ^ shift.toNat else x.coefficient
    let den := if 0 ≤ shift then y.coefficient else y.coefficient * 10 ^ (-shift).toNat
    let q := num / den
    if num % den = 0 then
      let (c, e) := trimTo ideal (digitCount q) q (ideal - shift)
      ctx.finish ⟨negative, c, e⟩
    else ctx.finish ⟨negative, if q % 5 = 0 then q + 1 else q, ideal - shift⟩

/-- Ten to a power, in a context: with exponent zero while the digits suffice. -/
def tenTo (ctx : Context) (n : Int) : Except DecimalFault Decimal :=
  if n < 0 then ctx.finish ⟨false, 1, n⟩
  else if ctx.maxExponent < n then .error .overflow
  else if n < ctx.digits then .ok ⟨false, 10 ^ n.toNat, 0⟩
  else .ok ⟨false, 10 ^ (ctx.digits - 1), n - (ctx.digits - 1 : Nat)⟩

def ofInt (n : Int) : Decimal := ⟨n < 0, n.natAbs, 0⟩

/-- Whether the number is whole. -/
def isWhole (x : Decimal) : Bool :=
  x.coefficient = 0 || 0 ≤ x.exponent ||
    (-x.exponent < digitCount x.coefficient && x.coefficient % 10 ^ (-x.exponent).toNat == 0)

/-- The magnitude of the number without its fraction. -/
def wholePart (x : Decimal) : Nat :=
  if 0 ≤ x.exponent then x.coefficient * 10 ^ x.exponent.toNat
  else if x.coefficient = 0 then 0
  else x.coefficient / 10 ^ (-x.exponent).toNat

/-- The text of the number: written out if the exponent is not positive and the first digit stands no
lower than the sixth place after the point, and else with the point after the first digit and an
exponent. -/
def toText (x : Decimal) : Text :=
  let ds := Text.ofNat x.coefficient
  let sign : Text := if x.negative then "-" else []
  let point : Int := ds.length + x.exponent
  if x.exponent ≤ 0 ∧ -6 ≤ x.adjusted then
    if x.exponent = 0 then sign ++ ds
    else if 0 < point then Text.join [sign, ds.take point.toNat, ".", ds.drop point.toNat]
    else
      let zeros := List.replicate (-point).toNat (CodePoint.ofChar '0')
      Text.join [sign, "0.", zeros, ds]
  else
    let mantissa := if ds.length = 1 then ds else Text.join [ds.take 1, ".", ds.drop 1]
    Text.join [sign, mantissa, "E", if x.adjusted < 0 then "-" else "+",
      Text.ofNat x.adjusted.natAbs]

end Decimal

/-- What a decimal text denotes. -/
inductive DecimalValue
  | finite (x : Decimal)
  | infinite (negative : Bool)
  | quietNan
  | signalingNan
  deriving DecidableEq, Repr

namespace DecimalValue

/-- A code point of a decimal text as one of ASCII, if it may stand in one at all. -/
def asciiOf? (c : CodePoint) : Option CodePoint :=
  if c.val = 0 then none
  else if c.isAscii then some c
  else if c.isBlank then some (CodePoint.ofChar ' ')
  else c.digitValue?.map fun n => CodePoint.ofNat (48 + n)

def asciiAll? : Text → Option Text
  | [] => some []
  | c :: t => do
    let c ← asciiOf? c
    let t ← asciiAll? t
    pure (c :: t)

def isDigit (c : CodePoint) : Bool := 48 ≤ c.val && c.val ≤ 57

def ofDigits (ds : Text) : Nat := ds.foldl (fun n d => 10 * n + (d.val - 48)) 0

/-- A letter of ASCII as a small one. -/
def lower (c : CodePoint) : CodePoint :=
  if 65 ≤ c.val ∧ c.val ≤ 90 then CodePoint.ofNat (c.val + 32) else c

/-- The sign of a text, and what follows it. -/
def signed : Text → Bool × Text
  | c :: t =>
    if c.val = 0x2D then (true, t) else if c.val = 0x2B then (false, t) else (false, c :: t)
  | [] => (false, [])

/-- The exponent that a text consists of, behind its letter. -/
def exponent? : Text → Option Int
  | [] => some 0
  | c :: t =>
    if (lower c).val ≠ 0x65 then none
    else
      let (negative, ds) := signed t
      if ds.isEmpty || !ds.all isDigit then none
      else some (if negative then -(ofDigits ds : Int) else ofDigits ds)

/-- The greatest power of ten that a decimal text may reach with its first digit. -/
def maxAdjusted : Int := 999999999999999999

/-- The least power of ten that a decimal text may reach with its last digit. -/
def minLast : Int := -1999999999999999997

/-- Reads digits with a point and an exponent, both of which may be missing. -/
def number? (negative : Bool) (t : Text) : Option DecimalValue := do
  let whole := t.takeWhile isDigit
  let rest := t.drop whole.length
  let hasPoint := rest.head? == some (CodePoint.ofChar '.')
  let fraction := if hasPoint then (rest.drop 1).takeWhile isDigit else []
  let rest := if hasPoint then rest.drop (1 + fraction.length) else rest
  if whole.isEmpty && fraction.isEmpty then failure
  let power ← exponent? rest
  let x : Decimal := ⟨negative, ofDigits (whole ++ fraction), power - fraction.length⟩
  if maxAdjusted < x.adjusted || x.exponent < minLast then failure
  pure (.finite x)

/-- Reads a text of ASCII without blanks around it. -/
def readAscii? (t : Text) : Option DecimalValue :=
  let (negative, t) := signed t
  let small := t.map lower
  let payload (count : Nat) : Bool := (t.drop count).all isDigit
  if small = ("inf" : Text) ∨ small = ("infinity" : Text) then some (.infinite negative)
  else if ("nan" : Text).isPrefixOf small then if payload 3 then some .quietNan else none
  else if ("snan" : Text).isPrefixOf small then if payload 4 then some .signalingNan else none
  else number? negative t

/-- Reads a decimal text: blanks around it and underscores anywhere do not count, and digits may be
those of any script. -/
def read? (t : Text) : Option DecimalValue :=
  (asciiAll? ((t.strip CodePoint.isBlank).filter (·.val ≠ 0x5F))).bind readAscii?

end DecimalValue

end LedgerWire
