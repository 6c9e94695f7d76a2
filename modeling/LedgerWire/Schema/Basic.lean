import LedgerWire.Number.Quantity

/-!
# Schemas

A schema is the shape of a value on the wire: integers, truth values, texts, byte strings, optional
values, lists, records and tagged unions. `Schema.describe` is its short text, and `Schema.minSize`
the fewest bytes that any value of the shape takes.
-/

namespace LedgerWire

/-- The sizes of integers. -/
inductive Width
  | w8 | w16 | w32 | w64 | w128
  deriving DecidableEq, Repr

namespace Width

def bytes : Width → Nat
  | w8 => 1
  | w16 => 2
  | w32 => 4
  | w64 => 8
  | w128 => 16

def bits (w : Width) : Nat := 8 * w.bytes

def ofBits? (n : Int) : Option Width :=
  [w8, w16, w32, w64, w128].find? fun w => (w.bits : Int) = n

/-- The least integer of a width. -/
def minInt (w : Width) (signed : Bool) : Int := if signed then -2 ^ (w.bits - 1) else 0

/-- The greatest integer of a width. -/
def maxInt (w : Width) (signed : Bool) : Int :=
  if signed then 2 ^ (w.bits - 1) - 1 else 2 ^ w.bits - 1

/-- The letter for signedness and the number of bits. -/
def describe (w : Width) (signed : Bool) : Text :=
  (if signed then ("i" : Text) else "u") ++ Text.ofNat w.bits

end Width

inductive Schema
  | integer (width : Width) (signed : Bool)
  /-- An integer whose number of bits was given as a floating-point number. It is equal to the width
  it stands for, yet bytes cannot be counted by it: no integer is written or read. -/
  | floatInteger (width : Width) (signed : Bool)
  | bool
  | text
  | bytes
  | fixedBytes (length : Nat)
  | option (inner : Schema)
  | vec (inner : Schema)
  | array (inner : Schema) (length : Nat)
  | record (fields : List (Text × Schema))
  | union (variants : List (Text × Schema))
  deriving Inhabited, Repr

/-- How many bytes hold the length of a text, byte string or list. -/
def lengthSize : Nat := 4

/-- The greatest length that fits. -/
def maxLength : Nat := 2 ^ 32 - 1

/-- One byte tells the variants of a union apart. -/
def maxVariants : Nat := 256

namespace Schema

/-- The record without fields, which takes no bytes. -/
def unit : Schema := .record []

mutual

/-- The short text of a schema; a union is described by the names of its variants alone. -/
def describe : Schema → Text
  | .integer w signed => w.describe signed
  | .floatInteger w signed => w.describe signed ++ (".0" : Text)
  | .bool => "bool"
  | .text => "string"
  | .bytes => "bytes"
  | .fixedBytes length => Text.join ["[u8; ", Text.ofNat length, "]"]
  | .option inner => Text.join ["Option<", describe inner, ">"]
  | .vec inner => Text.join ["Vec<", describe inner, ">"]
  | .array inner length => Text.join ["[", describe inner, "; ", Text.ofNat length, "]"]
  | .record fields => Text.join ["\x7b", Text.separated ", " (describeFields fields), "\x7d"]
  | .union variants => Text.join ["enum\x7b", Text.separated ", " (variants.map (·.1)), "\x7d"]

def describeFields : List (Text × Schema) → List Text
  | [] => []
  | (name, s) :: fields => Text.join [name, ": ", describe s] :: describeFields fields

end

mutual

/-- The fewest bytes that a value takes. -/
def minSize : Schema → Except Quantity.Fault Quantity
  | .integer w _ => .ok (.int w.bytes)
  | .floatInteger w _ => .ok (.float (Binary64.ofNat w.bytes))
  | .bool => .ok (.int 1)
  | .text => .ok (.int lengthSize)
  | .bytes => .ok (.int lengthSize)
  | .fixedBytes length => .ok (.int length)
  | .option _ => .ok (.int 1)
  | .vec _ => .ok (.int lengthSize)
  | .array inner length => do (← minSize inner).mul (.int length)
  | .record fields => sumMinSize (.int 0) fields
  | .union [] => .ok (.int 1)
  | .union ((_, s) :: variants) => do (Quantity.int 1).add (← leastMinSize (← minSize s) variants)

/-- A number of bytes and those of the fields, one after the other. -/
def sumMinSize (sum : Quantity) : List (Text × Schema) → Except Quantity.Fault Quantity
  | [] => .ok sum
  | (_, s) :: fields => do sumMinSize (← sum.add (← minSize s)) fields

/-- The least of a number of bytes and those of variants; of equal ones the first. -/
def leastMinSize (least : Quantity) : List (Text × Schema) → Except Quantity.Fault Quantity
  | [] => .ok least
  | (_, s) :: variants => do
    let size ← minSize s
    leastMinSize (least.least size) variants

end

mutual

/-- Whether two schemas describe the same shape; how a width was given does not count. -/
def same : Schema → Schema → Bool
  | .integer w a, .integer v b => w == v && a == b
  | .integer w a, .floatInteger v b => w == v && a == b
  | .floatInteger w a, .integer v b => w == v && a == b
  | .floatInteger w a, .floatInteger v b => w == v && a == b
  | .bool, .bool => true
  | .text, .text => true
  | .bytes, .bytes => true
  | .fixedBytes m, .fixedBytes n => m == n
  | .option s, .option t => same s t
  | .vec s, .vec t => same s t
  | .array s m, .array t n => same s t && m == n
  | .record fs, .record gs => sameFields fs gs
  | .union fs, .union gs => sameFields fs gs
  | _, _ => false

def sameFields : List (Text × Schema) → List (Text × Schema) → Bool
  | [], [] => true
  | (m, s) :: fs, (n, t) :: gs => m == n && same s t && sameFields fs gs
  | _, _ => false

end

end Schema

end LedgerWire
