import LedgerWire.Text.Digit
import LedgerWire.Value.Basic

/-!
# Numerals

A whole number may be given as text: digits of any script with single underscores between them, a
sign before them and blanks around. Numbers of every kind have a whole part, toward zero.
-/

namespace LedgerWire

inductive NumeralFault
  /-- The text or byte string shown is no numeral. -/
  | invalid (shown : Text)
  | notNumber
  | infinite
  | noNumeral (kind : Kind)
  deriving DecidableEq, Repr

def NumeralFault.message : NumeralFault → Text
  | .invalid shown => Text.join ["invalid literal for int() with base 10: ", shown.take 200]
  | .notNumber => "cannot convert float NaN to integer"
  | .infinite => "cannot convert float infinity to integer"
  | .noNumeral kind =>
    Text.join ["int() argument must be a string, a bytes-like object or a real number, not '",
      kind.name, "'"]

namespace Numeral

/-- A code point as one of ASCII: digits and blanks of any script become those of ASCII, and whatever
else is beyond ASCII becomes a mark that is part of no numeral. -/
def toAscii (c : CodePoint) : CodePoint :=
  if c.isAscii then c
  else if c.isBlank then CodePoint.ofChar ' '
  else match c.digitValue? with
    | some n => CodePoint.ofNat (48 + n)
    | none => CodePoint.ofChar '?'

/-- The value of a digit of ASCII. -/
def asciiDigit? (c : CodePoint) : Option Nat :=
  if 48 ≤ c.val ∧ c.val ≤ 57 then some (c.val - 48) else none

/-- The number that digits spell after a digit has been read; single underscores may stand between
two digits. -/
def digitsFrom (n : Nat) : Text → Option Nat
  | [] => some n
  | c :: t =>
    match asciiDigit? c with
    | some digit => digitsFrom (10 * n + digit) t
    | none =>
      if c.val ≠ 0x5F then none
      else match t with
        | [] => none
        | d :: t =>
          match asciiDigit? d with
          | some digit => digitsFrom (10 * n + digit) t
          | none => none

def natural? : Text → Option Nat
  | [] => none
  | c :: t =>
    match asciiDigit? c with
    | some digit => digitsFrom digit t
    | none => none

/-- Reads a numeral of ASCII. -/
def readAscii? (t : Text) : Option Int :=
  match Text.strip CodePoint.isAsciiBlank t with
  | [] => none
  | c :: rest =>
    if c.val = 0x2D then (natural? rest).map fun n => -(n : Int)
    else if c.val = 0x2B then (natural? rest).map fun n => (n : Int)
    else (natural? (c :: rest)).map fun n => (n : Int)

/-- Reads a numeral. -/
def read? (t : Text) : Option Int := readAscii? (t.map toAscii)

end Numeral

namespace Value

/-- The whole number that a value gives. -/
def whole : Value → Except NumeralFault Int
  | .bool b => .ok (if b then 1 else 0)
  | .int n => .ok n
  | .float .nan => .error .notNumber
  | .float (.infinite _) => .error .infinite
  | .float (.finite x) => .ok x.truncate
  | .text t => (Numeral.read? t).elim (.error (.invalid t.quoted)) .ok
  | .bytes bs =>
    (Numeral.readAscii? (bs.map fun b => CodePoint.ofNat b.toNat)).elim
      (.error (.invalid bs.quoted)) .ok
  | v => .error (.noNumeral v.kind)

end Value

end LedgerWire
