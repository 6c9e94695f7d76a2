import LedgerWire.Schema.Build
import LedgerWire.Text.Utf8
import LedgerWire.Value.Bytes
import LedgerWire.Value.Order

/-!
# Encoding

`Schema.encode` writes a value by its schema. Integers are little-endian; texts, byte strings and
lists of any length follow their length; an optional value follows a flag, and the payload of a union
the place of its variant; names are not written. The first part of the value that does not fit is
reported, with the path to it.
-/

namespace LedgerWire

/-- One step from a value to a part of it. -/
inductive Segment
  | item (index : Nat)
  | name (n : Text)
  deriving DecidableEq, Repr

def Segment.text : Segment → Text
  | .item index => Text.join ["[", Text.ofNat index, "]: "]
  | .name n => Text.join [n, ": "]

/-- Why a value does not fit the schema described by `schema`. -/
inductive Misfit
  | integer (schema : Text) (kind : Kind)
  | range (schema : Text) (n : Int)
  | bool (kind : Kind)
  | text (kind : Kind)
  | surrogates (fault : Utf8.EncodeFault)
  | bytes (schema : Text) (kind : Kind)
  | byteItem (schema : Text) (fault : ByteFault)
  | byteCount (schema : Text) (expected got : Nat)
  | tooLong (length : Nat)
  | list (schema : Text) (kind : Kind)
  | itemCount (schema : Text) (expected got : Nat)
  | record (kind : Kind)
  | fields (missing unexpected : List Text)
  | union (schema : Text)
  | variant (schema : Text) (name : Value)
  deriving Repr

/-- Texts between quotes, in brackets. -/
def quotedTexts (texts : List Text) : Text :=
  Text.join ["[", Text.separated ", " (texts.map Text.quoted), "]"]

def Misfit.message : Misfit → Text
  | .integer schema kind => Text.join [schema, " expects an int, got ", kind.name]
  | .range schema n => Text.join [Text.ofInt n, " is out of range for ", schema]
  | .bool kind => Text.join ["bool expects a bool, got ", kind.name]
  | .text kind => Text.join ["string expects a str, got ", kind.name]
  | .surrogates fault => Text.join ["String is not encodable as UTF-8: ", fault.message]
  | .bytes schema kind => Text.join [schema, " expects bytes, got ", kind.name]
  | .byteItem schema fault => Text.join [schema, " items must be ints in 0..255: ", fault.message]
  | .byteCount schema expected got =>
    Text.join [schema, " expects exactly ", Text.ofNat expected, " bytes, got ", Text.ofNat got]
  | .tooLong length => Text.join ["Length ", Text.ofNat length, " does not fit a u32 prefix"]
  | .list schema kind => Text.join [schema, " expects a list, got ", kind.name]
  | .itemCount schema expected got =>
    Text.join [schema, " expects ", Text.ofNat expected, " items, got ", Text.ofNat got]
  | .record kind => Text.join ["Record expects a mapping, got ", kind.name]
  | .fields missing unexpected =>
    Text.join ["Record field mismatch (missing=", quotedTexts missing, ", unexpected=",
      quotedTexts unexpected, ")"]
  | .union schema => Text.join [schema, " expects a single-key mapping \x7bvariant: payload\x7d"]
  | .variant schema name => Text.join ["Unknown variant '", name.display, "' for ", schema]

inductive EncodeError
  /-- The part at the end of the path does not fit. -/
  | mismatch (path : List Segment) (misfit : Misfit)
  /-- An integer of a floating-point width is met whose range would have to be known. -/
  | floatWidth
  deriving Repr

def EncodeError.message : EncodeError → Text
  | .mismatch path misfit => Text.join [Text.join (path.map Segment.text), misfit.message]
  | .floatWidth => "unsupported operand type(s) for <<: 'int' and 'float'"

/-- The error seen from one step further out. -/
def EncodeError.within (segment : Segment) : EncodeError → EncodeError
  | .mismatch path misfit => .mismatch (segment :: path) misfit
  | .floatWidth => .floatWidth

namespace Schema

/-- The part itself does not fit. -/
def misfit {α : Type} (reason : Misfit) : Except EncodeError α := .error (.mismatch [] reason)

/-- A length in front of what it counts. -/
def encodeLength (length : Nat) : Except EncodeError Bytes :=
  if length ≤ maxLength then .ok (Bytes.ofNatLE lengthSize length) else misfit (.tooLong length)

def encodeInteger (w : Width) (signed : Bool) : Value → Except EncodeError Bytes
  | .int n =>
    if w.minInt signed ≤ n ∧ n ≤ w.maxInt signed then .ok (Bytes.ofIntLE w.bytes n)
    else misfit (.range (w.describe signed) n)
  | v => misfit (.integer (w.describe signed) v.kind)

/-- Only what is refused without a look at the range can be told apart. -/
def encodeFloatInteger (w : Width) (signed : Bool) : Value → Except EncodeError Bytes
  | .int n =>
    if !signed && n < 0 then misfit (.range (describe (.floatInteger w signed)) n)
    else .error .floatWidth
  | v => misfit (.integer (describe (.floatInteger w signed)) v.kind)

def encodeText : Value → Except EncodeError Bytes
  | .text t =>
    match Utf8.encode t with
    | .ok bs => do
      let length ← encodeLength bs.length
      pure (length ++ bs)
    | .error fault => misfit (.surrogates fault)
  | v => misfit (.text v.kind)

/-- The byte string that a value stands for, for the schema `s`. -/
def bytesFor (s : Schema) : Value → Except EncodeError Bytes
  | .bytes bs => .ok bs
  | .list items =>
    match Value.toByteItems items with
    | .ok bs => .ok bs
    | .error fault => misfit (.byteItem s.describe fault)
  | v => misfit (.bytes s.describe v.kind)

def encodeBytes (v : Value) : Except EncodeError Bytes := do
  let bs ← bytesFor .bytes v
  let length ← encodeLength bs.length
  pure (length ++ bs)

def encodeFixedBytes (length : Nat) (v : Value) : Except EncodeError Bytes := do
  let bs ← bytesFor (.fixedBytes length) v
  if bs.length = length then pure bs
  else misfit (.byteCount (describe (.fixedBytes length)) length bs.length)

/-- Items one after the other, the first of them at `index`. -/
def encodeItems (encode : Value → Except EncodeError Bytes) (index : Nat) :
    List Value → Except EncodeError Bytes
  | [] => .ok []
  | item :: items => do
    let front ← (encode item).mapError (·.within (.item index))
    let back ← encodeItems encode (index + 1) items
    pure (front ++ back)

/-- A record has to have an entry for each field and no other. -/
def checkFields (fields : List (Text × Schema)) (entries : Entries) : Except EncodeError Unit :=
  let missing := (fields.map (·.1)).filter fun name => (entries.field? name).isNone
  let unexpected := (entries.map (·.1)).filter fun
    | .text t => !fields.any (·.1 == t)
    | _ => true
  if missing.isEmpty && unexpected.isEmpty && entries.length == fields.length then .ok ()
  else misfit (.fields (Text.sorted missing) (Text.sorted (unexpected.map Value.display)))

mutual

def encode : Schema → Value → Except EncodeError Bytes
  | .integer w signed, v => encodeInteger w signed v
  | .floatInteger w signed, v => encodeFloatInteger w signed v
  | .bool, .bool b => .ok [if b then 1 else 0]
  | .bool, v => misfit (.bool v.kind)
  | .text, v => encodeText v
  | .bytes, v => encodeBytes v
  | .fixedBytes length, v => encodeFixedBytes length v
  | .option _, .none => .ok [0]
  | .option inner, v => (encode inner v).map (1 :: ·)
  | .vec inner, .list items => do
    let length ← encodeLength items.length
    let body ← encodeItems (encode inner) 0 items
    pure (length ++ body)
  | .vec inner, v => misfit (.list (describe (.vec inner)) v.kind)
  | .array inner length, .list items =>
    if items.length = length then encodeItems (encode inner) 0 items
    else misfit (.itemCount (describe (.array inner length)) length items.length)
  | .array inner length, v => misfit (.list (describe (.array inner length)) v.kind)
  | .record fields, .map entries => do
    checkFields fields entries
    encodeFields fields entries
  | .record _, v => misfit (.record v.kind)
  | .union variants, .map [(name, payload)] =>
    match name with
    | .text t =>
      (encodeVariant variants t payload 0).getD (misfit (.variant (describe (.union variants)) name))
    | _ => misfit (.variant (describe (.union variants)) name)
  | .union variants, _ => misfit (.union (describe (.union variants)))

/-- The fields in the order of the schema. -/
def encodeFields : List (Text × Schema) → Entries → Except EncodeError Bytes
  | [], _ => .ok []
  | (name, s) :: fields, entries => do
    let some v := entries.field? name | misfit (.fields [name] [])
    let front ← (encode s v).mapError (·.within (.name name))
    let back ← encodeFields fields entries
    pure (front ++ back)

/-- The payload of the variant called `name`, after its place; `index` is the place of the first of
these variants. -/
def encodeVariant : List (Text × Schema) → (name : Text) → (payload : Value) → (index : Nat) →
    Option (Except EncodeError Bytes)
  | [], _, _, _ => none
  | (n, s) :: variants, name, payload, index =>
    if n = name then
      some (((encode s payload).mapError (·.within (.name name))).map (UInt8.ofNat index :: ·))
    else encodeVariant variants name payload (index + 1)

end

/-- The place of a variant. -/
def indexOf (variants : List (Text × Schema)) (name : Value) : Except EncodeError Nat :=
  match variants.findIdx? (fun variant => name.sameScalar (.text variant.1)) with
  | some index => .ok index
  | none => misfit (.variant (describe (.union variants)) name)

end Schema

end LedgerWire
