/-!
# Code points and texts

A text is a list of Unicode code points. A lone surrogate is a code point like any other, so a text
can hold more than a `String`: the wire format refuses such a text, and documents may carry it as an
escape.
-/

namespace LedgerWire

/-- A number in the Unicode code space, surrogates included. -/
abbrev CodePoint := Fin 0x110000

namespace CodePoint

/-- The code point numbered `n`, for an `n` of the code space. -/
def ofNat (n : Nat) : CodePoint := Fin.ofNat 0x110000 n

theorem val_ofNat {n : Nat} (h : n < 0x110000) : (ofNat n).val = n := Nat.mod_eq_of_lt h

@[simp] theorem ofNat_val (c : CodePoint) : ofNat c.val = c := Fin.ext (val_ofNat c.isLt)

def ofChar (c : Char) : CodePoint := ofNat c.toNat

/-- Half of a pair of 16-bit units; on its own it stands for no character. -/
def isSurrogate (c : CodePoint) : Bool := 0xD800 ≤ c.val && c.val ≤ 0xDFFF

def isHighSurrogate (c : CodePoint) : Bool := 0xD800 ≤ c.val && c.val ≤ 0xDBFF

def isLowSurrogate (c : CodePoint) : Bool := 0xDC00 ≤ c.val && c.val ≤ 0xDFFF

def isAscii (c : CodePoint) : Bool := c.val < 0x80

end CodePoint

abbrev Text := List CodePoint

namespace Text

def ofString (s : String) : Text := s.toList.map CodePoint.ofChar

instance : Coe String Text := ⟨ofString⟩

/-- One text after the other. -/
def join (parts : List Text) : Text := parts.flatten

/-- The parts with `sep` between neighbours. -/
def separated (sep : Text) : List Text → Text
  | [] => []
  | [part] => part
  | part :: parts => part ++ sep ++ separated sep parts

/-- A number in decimal digits. -/
def ofNat (n : Nat) : Text := (Nat.toDigits 10 n).map CodePoint.ofChar

/-- A number in decimal digits, with a hyphen before a negative one. -/
def ofInt : Int → Text
  | .ofNat n => ofNat n
  | .negSucc n => CodePoint.ofChar '-' :: ofNat (n + 1)

/-- The lowercase hexadecimal digit of `n`, for `n` below sixteen. -/
def hexDigit (n : Nat) : CodePoint :=
  if n < 10 then CodePoint.ofNat (48 + n) else CodePoint.ofNat (87 + n)

/-- The `width` lowest hexadecimal digits of `n`. -/
def hexDigits : (width n : Nat) → Text
  | 0, _ => []
  | width + 1, n => hexDigits width (n / 16) ++ [hexDigit (n % 16)]

/-- The value of a hexadecimal digit of either case. -/
def hexValue? (c : CodePoint) : Option Nat :=
  let n := c.val
  if 48 ≤ n && n ≤ 57 then some (n - 48)
  else if 97 ≤ n && n ≤ 102 then some (n - 87)
  else if 65 ≤ n && n ≤ 70 then some (n - 55)
  else none

/-- Lexicographic order by the numbers of the code points. -/
def precedes : Text → Text → Bool
  | [], _ => true
  | _ :: _, [] => false
  | c :: s, d :: t => c.val < d.val || (c == d && precedes s t)

/-- Sorted by code points; equal texts keep their order. -/
def sorted (texts : List Text) : List Text := texts.mergeSort precedes

end Text

end LedgerWire
