import LedgerWire.Value.Basic

/-!
# Values that stand for byte strings

A list stands for a byte string if each item is an integer below 256 or a truth value. The codec
takes byte strings and such lists only. At the edges of the library `Value.gatherBytes` also takes the
keys of a mapping, and the still looser `Value.castBytes` a number as that many zeros.
-/

namespace LedgerWire

/-- Why an item is no byte. -/
inductive ByteFault
  | outOfRange
  | notInteger (kind : Kind)
  deriving DecidableEq, Repr

def ByteFault.message : ByteFault → Text
  | .outOfRange => "bytes must be in range(0, 256)"
  | .notInteger kind => Text.join ["'", kind.name, "' object cannot be interpreted as an integer"]

/-- Why a value has no cast to a byte string. -/
inductive CastFault
  | item (fault : ByteFault)
  | negativeCount
  | hugeCount
  | tooLong
  | text
  | notBytes (kind : Kind)
  deriving DecidableEq, Repr

def CastFault.message : CastFault → Text
  | .item fault => fault.message
  | .negativeCount => "negative count"
  | .hugeCount => "cannot fit 'int' into an index-sized integer"
  | .tooLong => "byte string is too large"
  | .text => "string argument without an encoding"
  | .notBytes kind => Text.join ["cannot convert '", kind.name, "' object to bytes"]

namespace Value

def toByte (value : Value) : Except ByteFault UInt8 :=
  match value.toInt? with
  | some n => if 0 ≤ n ∧ n < 256 then .ok (UInt8.ofNat n.toNat) else .error .outOfRange
  | Option.none => .error (.notInteger value.kind)

/-- The bytes that items stand for; the first item that is no byte is reported. -/
def toByteItems : List Value → Except ByteFault Bytes
  | [] => .ok []
  | item :: items => do
    let b ← toByte item
    let bs ← toByteItems items
    pure (b :: bs)

/-- The byte string that a value is, or that its items or keys stand for. -/
def gatherBytes : Value → Except CastFault Bytes
  | .bytes bs => .ok bs
  | .list items => (toByteItems items).mapError .item
  | .map entries => (toByteItems (entries.map (·.1))).mapError .item
  | v => .error (.notBytes v.kind)

/-- The byte string that a value is cast to. -/
def castBytes : Value → Except CastFault Bytes
  | .bool b => .ok (if b then [0] else [])
  | .int n =>
    if n < -2 ^ 63 ∨ 2 ^ 63 ≤ n then .error .hugeCount
    else if n < 0 then .error .negativeCount
    else if n ≤ Bytes.maxLength then .ok (List.replicate n.toNat 0)
    else .error .tooLong
  | .text _ => .error .text
  | v => v.gatherBytes

end Value

end LedgerWire
