import LedgerWire.Text.Quoted

/-!
# UTF-8

`encode` refuses surrogates and reports the first run of them. `decode` accepts shortest forms of
characters only and reports the first byte sequence that is the start of none, with its positions in
the byte string.
-/

namespace LedgerWire

namespace Utf8

/-- A run of surrogates, by the places of its first and last one in the text. -/
structure EncodeFault where
  first : Nat
  last : Nat
  codePoint : CodePoint
  deriving DecidableEq, Repr

def EncodeFault.message (fault : EncodeFault) : Text :=
  let reason : Text := ": surrogates not allowed"
  if fault.first = fault.last then
    Text.join ["'utf-8' codec can't encode character '\\u", Text.hexDigits 4 fault.codePoint.val,
      "' in position ", Text.ofNat fault.first, reason]
  else
    Text.join ["'utf-8' codec can't encode characters in position ", Text.ofNat fault.first, "-",
      Text.ofNat fault.last, reason]

/-- The bytes of one code point. -/
def encodeOne (c : CodePoint) : Bytes :=
  let n := c.val
  if n < 0x80 then [UInt8.ofNat n]
  else if n < 0x800 then [UInt8.ofNat (0xC0 + n / 0x40), UInt8.ofNat (0x80 + n % 0x40)]
  else if n < 0x10000 then
    [UInt8.ofNat (0xE0 + n / 0x1000), UInt8.ofNat (0x80 + n / 0x40 % 0x40),
      UInt8.ofNat (0x80 + n % 0x40)]
  else
    [UInt8.ofNat (0xF0 + n / 0x40000), UInt8.ofNat (0x80 + n / 0x1000 % 0x40),
      UInt8.ofNat (0x80 + n / 0x40 % 0x40), UInt8.ofNat (0x80 + n % 0x40)]

/-- The first run of surrogates in a text whose first code point has the place `start`. -/
def surrogateRun? (start : Nat) : Text → Option EncodeFault
  | [] => none
  | c :: t =>
    if c.isSurrogate then some ⟨start, start + (t.takeWhile CodePoint.isSurrogate).length, c⟩
    else surrogateRun? (start + 1) t

def encode (t : Text) : Except EncodeFault Bytes :=
  match surrogateRun? 0 t with
  | some fault => .error fault
  | none => .ok (t.flatMap encodeOne)

inductive DecodeReason
  /-- No character starts with this byte. -/
  | invalidStart
  /-- The character has begun, and the next byte does not go on with it. -/
  | invalidContinuation
  /-- The byte string ends within the character. -/
  | unexpectedEnd
  deriving DecidableEq, Repr

/-- `length` bytes from `position` on, of which `lead` is the first, are the start of no character. -/
structure DecodeFault where
  position : Nat
  length : Nat
  lead : UInt8
  reason : DecodeReason
  deriving DecidableEq, Repr

def DecodeReason.message : DecodeReason → Text
  | .invalidStart => "invalid start byte"
  | .invalidContinuation => "invalid continuation byte"
  | .unexpectedEnd => "unexpected end of data"

def DecodeFault.message (fault : DecodeFault) : Text :=
  if fault.length = 1 then
    Text.join ["'utf-8' codec can't decode byte 0x", Text.hexDigits 2 fault.lead.toNat,
      " in position ", Text.ofNat fault.position, ": ", fault.reason.message]
  else
    Text.join ["'utf-8' codec can't decode bytes in position ", Text.ofNat fault.position, "-",
      Text.ofNat (fault.position + fault.length - 1), ": ", fault.reason.message]

/-- How many bytes follow a lead byte, and the range of the first of them. -/
def continuation? (lead : Nat) : Option (Nat × Nat × Nat) :=
  if lead < 0xC2 then none
  else if lead < 0xE0 then some (1, 0x80, 0xBF)
  else if lead = 0xE0 then some (2, 0xA0, 0xBF)
  else if lead = 0xED then some (2, 0x80, 0x9F)
  else if lead < 0xF0 then some (2, 0x80, 0xBF)
  else if lead = 0xF0 then some (3, 0x90, 0xBF)
  else if lead < 0xF4 then some (3, 0x80, 0xBF)
  else if lead = 0xF4 then some (3, 0x80, 0x8F)
  else none

def isTail (b : UInt8) : Bool := 0x80 ≤ b.toNat && b.toNat ≤ 0xBF

/-- The six bits that a byte after the lead adds. -/
def tailBits (b : UInt8) : Nat := b.toNat % 0x40

/-- Reads a byte string that stands at `position` of a longer one. -/
def decodeAt (position : Nat) : Bytes → Except DecodeFault Text
  | [] => .ok []
  | lead :: rest =>
    let fault (length : Nat) (reason : DecodeReason) : Except DecodeFault Text :=
      .error ⟨position, length, lead, reason⟩
    let found (n : Nat) (text : Except DecodeFault Text) : Except DecodeFault Text :=
      text.map (CodePoint.ofNat n :: ·)
    if lead.toNat < 0x80 then found lead.toNat (decodeAt (position + 1) rest)
    else match continuation? lead.toNat with
      | none => fault 1 .invalidStart
      | some (count, low, high) =>
        match rest with
        | [] => fault 1 .unexpectedEnd
        | b₁ :: rest =>
          if b₁.toNat < low || high < b₁.toNat then fault 1 .invalidContinuation
          else if count = 1 then
            found (lead.toNat % 0x20 * 0x40 + tailBits b₁) (decodeAt (position + 2) rest)
          else match rest with
            | [] => fault 2 .unexpectedEnd
            | b₂ :: rest =>
              if !isTail b₂ then fault 2 .invalidContinuation
              else if count = 2 then
                found ((lead.toNat % 0x10 * 0x40 + tailBits b₁) * 0x40 + tailBits b₂)
                  (decodeAt (position + 3) rest)
              else match rest with
                | [] => fault 3 .unexpectedEnd
                | b₃ :: rest =>
                  if !isTail b₃ then fault 3 .invalidContinuation
                  else
                    found (((lead.toNat % 0x08 * 0x40 + tailBits b₁) * 0x40 + tailBits b₂) * 0x40
                      + tailBits b₃) (decodeAt (position + 4) rest)

def decode (bs : Bytes) : Except DecodeFault Text := decodeAt 0 bs

end Utf8

end LedgerWire
