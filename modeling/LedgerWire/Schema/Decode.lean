import LedgerWire.Schema.Encode

/-!
# Decoding

`Schema.decodeAt` reads one value of a schema from a place in a byte string, and tells where the value
ends. Every read is checked against what is left; places in errors count from the beginning of the
byte string. `Schema.deserialize` reads a value that spans a whole byte string.
-/

namespace LedgerWire

inductive DecodeError
  /-- `needed` bytes have to stand at `offset`, and only `left` do. -/
  | truncated (needed offset left : Nat)
  /-- The same, for an integer of a floating-point width. -/
  | truncatedFloat (needed offset left : Nat)
  /-- More items are announced than the rest of the input can hold. -/
  | truncatedItems (schema : Text) (count : Nat)
  | optionFlag (flag offset : Nat)
  | variantTag (schema : Text) (tag offset count : Nat)
  | boolByte (byte offset : Nat)
  | utf8 (offset : Nat) (fault : Utf8.DecodeFault)
  | trailing (schema : Text) (count : Nat)
  /-- An integer of a floating-point width is met, and bytes cannot be counted by it. -/
  | floatWidth
  /-- The fewest bytes of the items cannot be told; no schema that was built is of this kind. -/
  | size (fault : Quantity.Fault)
  deriving DecidableEq, Repr

def DecodeError.message : DecodeError → Text
  | .truncated needed offset left =>
    Text.join ["Need ", Text.ofNat needed, " bytes at offset ", Text.ofNat offset, ", only ",
      Text.ofNat left, " left"]
  | .truncatedFloat needed offset left =>
    Text.join ["Need ", Text.ofNat needed, ".0 bytes at offset ", Text.ofNat offset, ", only ",
      Text.ofNat left, " left"]
  | .truncatedItems schema count =>
    Text.join [schema, " declares ", Text.ofNat count, " items but input is too short"]
  | .optionFlag flag offset =>
    Text.join ["Invalid option flag ", Text.ofNat flag, " at offset ", Text.ofNat offset]
  | .variantTag schema tag offset count =>
    Text.join ["Tag ", Text.ofNat tag, " at offset ", Text.ofNat offset, " exceeds ",
      Text.ofNat count, " variants of ", schema]
  | .boolByte byte offset =>
    Text.join ["Invalid bool byte ", Text.ofNat byte, " at offset ", Text.ofNat offset]
  | .utf8 offset fault =>
    Text.join ["Malformed UTF-8 at offset ", Text.ofNat offset, ": ", fault.message]
  | .trailing schema count =>
    Text.join [Text.ofNat count, " unconsumed bytes after ", schema]
  | .floatWidth => "slice indices must be integers or None or have an __index__ method"
  | .size fault => fault.message

/-- A byte string that is being read: what is left of it, and the offset where that begins. -/
structure Cursor where
  offset : Nat
  rest : Bytes
  deriving DecidableEq, Repr

namespace Cursor

/-- The next `size` bytes, and the cursor after them. -/
def take (c : Cursor) (size : Nat) : Except DecodeError (Bytes × Cursor) :=
  let front := c.rest.take size
  if front.length = size then .ok (front, ⟨c.offset + size, c.rest.drop size⟩)
  else .error (.truncated size c.offset c.rest.length)

/-- The next byte, and the cursor after it. -/
def next (c : Cursor) : Except DecodeError (UInt8 × Cursor) :=
  match c.rest with
  | b :: rest => .ok (b, ⟨c.offset + 1, rest⟩)
  | [] => .error (.truncated 1 c.offset 0)

/-- The length of what follows it. -/
def length (c : Cursor) : Except DecodeError (Nat × Cursor) := do
  let (bs, c) ← c.take lengthSize
  pure (bs.toNatLE, c)

end Cursor

namespace Schema

def readInteger (w : Width) (signed : Bool) (c : Cursor) : Except DecodeError (Value × Cursor) := do
  let (bs, c) ← c.take w.bytes
  pure (.int (if signed then bs.toIntLE else bs.toNatLE), c)

/-- Ends in an error, whatever is left. -/
def readFloatInteger (w : Width) (c : Cursor) : Except DecodeError (Value × Cursor) :=
  if c.rest.length < w.bytes then .error (.truncatedFloat w.bytes c.offset c.rest.length)
  else .error .floatWidth

def readBool (c : Cursor) : Except DecodeError (Value × Cursor) := do
  let (b, after) ← c.next
  if b.toNat ≤ 1 then pure (.bool (b.toNat == 1), after)
  else .error (.boolByte b.toNat c.offset)

def readText (c : Cursor) : Except DecodeError (Value × Cursor) := do
  let (length, body) ← c.length
  let (bs, after) ← body.take length
  match Utf8.decode bs with
  | .ok t => pure (.text t, after)
  | .error fault => .error (.utf8 body.offset fault)

def readBytes (c : Cursor) : Except DecodeError (Value × Cursor) := do
  let (length, body) ← c.length
  let (bs, after) ← body.take length
  pure (.bytes bs, after)

def readFixedBytes (length : Nat) (c : Cursor) : Except DecodeError (Value × Cursor) := do
  let (bs, after) ← c.take length
  pure (.bytes bs, after)

/-- `count` items, one after the other. -/
def readItems (read : Cursor → Except DecodeError (Value × Cursor)) :
    (count : Nat) → Cursor → Except DecodeError (List Value × Cursor)
  | 0, c => .ok ([], c)
  | count + 1, c => do
    let (item, c) ← read c
    let (items, c) ← readItems read count c
    pure (item :: items, c)

mutual

/-- Reads one value where the cursor stands. -/
def read : Schema → Cursor → Except DecodeError (Value × Cursor)
  | .integer w signed, c => readInteger w signed c
  | .floatInteger w _, c => readFloatInteger w c
  | .bool, c => readBool c
  | .text, c => readText c
  | .bytes, c => readBytes c
  | .fixedBytes length, c => readFixedBytes length c
  | .option inner, c => do
    let (flag, after) ← c.next
    if flag = 0 then pure (.none, after)
    else if flag = 1 then read inner after
    else .error (.optionFlag flag.toNat c.offset)
  | .vec inner, c => do
    let (count, c) ← c.length
    let least ← (inner.minSize.bind (Quantity.int count).mul).mapError .size
    if (Quantity.int c.rest.length).less least then
      .error (.truncatedItems (describe (.vec inner)) count)
    else do
      let (items, c) ← readItems (read inner) count c
      pure (.list items, c)
  | .array inner length, c => do
    let (items, c) ← readItems (read inner) length c
    pure (.list items, c)
  | .record fields, c => do
    let (entries, c) ← readFields fields c
    pure (.map entries, c)
  | .union variants, c => do
    let (tag, after) ← c.next
    (readVariant variants tag.toNat after).getD
      (.error (.variantTag (describe (.union variants)) tag.toNat c.offset variants.length))

/-- The fields in their order. -/
def readFields : List (Text × Schema) → Cursor → Except DecodeError (Entries × Cursor)
  | [], c => .ok ([], c)
  | (name, s) :: fields, c => do
    let (v, c) ← read s c
    let (entries, c) ← readFields fields c
    pure ((.text name, v) :: entries, c)

/-- The payload of the variant at a place, under its name. -/
def readVariant : List (Text × Schema) → (index : Nat) → Cursor →
    Option (Except DecodeError (Value × Cursor))
  | [], _, _ => none
  | (name, s) :: _, 0, c =>
    some ((read s c).map fun (payload, c) => (.map [(.text name, payload)], c))
  | _ :: variants, index + 1, c => readVariant variants index c

end

/-- Reads one value at `offset` of `data`, and tells the offset after it. -/
def decodeAt (s : Schema) (data : Bytes) (offset : Nat) : Except DecodeError (Value × Nat) :=
  (s.read ⟨offset, data.drop offset⟩).map fun (v, c) => (v, c.offset)

/-- Reads one value at the beginning of `data`, and tells how many bytes it took. -/
def decode (s : Schema) (data : Bytes) : Except DecodeError (Value × Nat) := s.decodeAt data 0

/-- Reads a value that spans the whole of `data`. -/
def deserialize (s : Schema) (data : Bytes) : Except DecodeError Value := do
  let (v, consumed) ← s.decode data
  if consumed = data.length then pure v
  else .error (.trailing s.describe (data.length - consumed))

end Schema

end LedgerWire
