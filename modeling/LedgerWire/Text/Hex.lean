import LedgerWire.Bytes.Basic
import LedgerWire.Text.Digit

/-!
# Bytes in hexadecimal

Bytes are written as two lowercase digits each. In reading, the case of digits is free, one leading
`0x` or `0X` is dropped, and blanks of ASCII may stand between bytes, though not within one.
-/

namespace LedgerWire

namespace Hex

/-- Two digits for each byte. -/
def encode (bs : Bytes) : Text := bs.flatMap fun b => Text.hexDigits 2 b.toNat

/-- The mark before a text in hexadecimal. -/
def mark : Text := "0x"

inductive Fault
  /-- The code point at this place, counted after the mark, does not belong there. -/
  | notHexadecimal (position : Nat)
  /-- The text is read, and spells another number of bytes than it has to. -/
  | wrongLength (expected : Text) (got : Nat)
  deriving DecidableEq, Repr

def Fault.message : Fault → Text
  | .notHexadecimal position =>
    Text.join ["Invalid hex string: non-hexadecimal number found in fromhex() arg at position ",
      Text.ofNat position]
  | .wrongLength expected got =>
    Text.join ["Expected ", expected, " bytes, got ", Text.ofNat got]

/-- The text without its mark. -/
def unmarked : Text → Text
  | c :: d :: t => if c.val = 0x30 ∧ (d.val = 0x78 ∨ d.val = 0x58) then t else c :: d :: t
  | t => t

/-- Reads pairs of digits from a text whose first code point has the place `position`. -/
def pairs (position : Nat) : Text → Except Fault Bytes
  | [] => .ok []
  | c :: t =>
    if c.isAsciiBlank then pairs (position + 1) t
    else match Text.hexValue? c with
      | none => .error (.notHexadecimal position)
      | some high =>
        match t with
        | [] => .error (.notHexadecimal (position + 1))
        | d :: t =>
          match Text.hexValue? d with
          | none => .error (.notHexadecimal (position + 1))
          | some low => (pairs (position + 2) t).map (UInt8.ofNat (16 * high + low) :: ·)

/-- Reads a text of pairs. A code point beyond ASCII is reported before anything else. -/
def decodeUnmarked (t : Text) : Except Fault Bytes :=
  match t.findIdx? (fun c => !c.isAscii) with
  | some position => .error (.notHexadecimal position)
  | none => pairs 0 t

/-- Reads a text with or without its mark. -/
def decode (t : Text) : Except Fault Bytes := decodeUnmarked (unmarked t)

/-- Reads a text that has to spell as many bytes as `fits` says; `expected` describes how many. -/
def decodeFitting (fits : Nat → Bool) (expected : Text) (t : Text) : Except Fault Bytes := do
  let bs ← decode t
  if fits bs.length then pure bs else .error (.wrongLength expected bs.length)

/-- Reads a text that has to spell `length` bytes. -/
def decodeExactly (length : Nat) (t : Text) : Except Fault Bytes :=
  decodeFitting (· == length) (Text.ofNat length) t

end Hex

end LedgerWire
