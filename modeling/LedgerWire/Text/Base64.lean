import LedgerWire.Bytes.Basic
import LedgerWire.Text.Basic

/-!
# Base64

Strict reading of padded base64: only the letters of the alphabet and closing padding are allowed,
and the bits that fill up the last letter may be anything. `encode` writes the standard padded form.
-/

namespace LedgerWire

namespace Base64

inductive Fault
  | notAscii
  | leadingPadding
  | dataAfterPadding
  | notInAlphabet
  | brokenPadding
  | loneLetter (count : Nat)
  | missingPadding
  deriving DecidableEq, Repr

def Fault.message : Fault → Text
  | .notAscii => "string argument should contain only ASCII characters"
  | .leadingPadding => "Leading padding not allowed"
  | .dataAfterPadding => "Excess data after padding"
  | .notInAlphabet => "Only base64 data is allowed"
  | .brokenPadding => "Discontinuous padding not allowed"
  | .loneLetter count =>
    Text.join ["Invalid base64-encoded string: number of data characters (", Text.ofNat count,
      ") cannot be 1 more than a multiple of 4"]
  | .missingPadding => "Incorrect padding"

/-- The six bits that a letter of the alphabet stands for. -/
def letterValue? (c : CodePoint) : Option Nat :=
  let n := c.val
  if 65 ≤ n && n ≤ 90 then some (n - 65)
  else if 97 ≤ n && n ≤ 122 then some (n - 71)
  else if 48 ≤ n && n ≤ 57 then some (n + 4)
  else if n = 43 then some 62
  else if n = 47 then some 63
  else none

/-- The letter for six bits. -/
def letter (n : Nat) : CodePoint :=
  if n < 26 then CodePoint.ofNat (n + 65)
  else if n < 52 then CodePoint.ofNat (n + 71)
  else if n < 62 then CodePoint.ofNat (n - 4)
  else if n = 62 then CodePoint.ofChar '+'
  else CodePoint.ofChar '/'

def pad : CodePoint := CodePoint.ofChar '='

/-- Three bytes for every four letters; of a last group of two or three letters, the whole bytes. -/
def bytesOfLetters : List Nat → Bytes
  | a :: b :: c :: d :: rest =>
    UInt8.ofNat (a * 4 + b / 16) :: UInt8.ofNat (b % 16 * 16 + c / 4) ::
      UInt8.ofNat (c % 4 * 64 + d) :: bytesOfLetters rest
  | [a, b, c] => [UInt8.ofNat (a * 4 + b / 16), UInt8.ofNat (b % 16 * 16 + c / 4)]
  | [a, b] => [UInt8.ofNat (a * 4 + b / 16)]
  | _ => []

/-- Collects the letters. `count` letters have been read before this text, the last `padding` marks
of padding directly before it, and `padded` tells whether there has been any padding at all. -/
def letters (count padding : Nat) (padded : Bool) : Text → Except Fault (List Nat)
  | [] =>
    if count % 4 = 0 then .ok []
    else if count % 4 = 1 then .error (.loneLetter count)
    else .error .missingPadding
  | c :: t =>
    if c = pad then
      if 2 ≤ count % 4 then
        if 4 ≤ count % 4 + (padding + 1) then
          if t.isEmpty then .ok [] else .error .dataAfterPadding
        else letters count (padding + 1) true t
      else letters count padding true t
    else match letterValue? c with
      | none => .error .notInAlphabet
      | some n =>
        if padded then .error .brokenPadding
        else (letters (count + 1) 0 padded t).map (n :: ·)

def decode (t : Text) : Except Fault Bytes :=
  if t.any (fun c => !c.isAscii) then .error .notAscii
  else if t.head? = some pad then .error .leadingPadding
  else (letters 0 0 false t).map bytesOfLetters

/-- Four letters for every three bytes, the last group filled up with padding. -/
def encode : Bytes → Text
  | a :: b :: c :: rest =>
    letter (a.toNat / 4) :: letter (a.toNat % 4 * 16 + b.toNat / 16) ::
      letter (b.toNat % 16 * 4 + c.toNat / 64) :: letter (c.toNat % 64) :: encode rest
  | [a, b] =>
    [letter (a.toNat / 4), letter (a.toNat % 4 * 16 + b.toNat / 16), letter (b.toNat % 16 * 4), pad]
  | [a] => [letter (a.toNat / 4), letter (a.toNat % 4 * 16), pad, pad]
  | [] => []

end Base64

end LedgerWire
