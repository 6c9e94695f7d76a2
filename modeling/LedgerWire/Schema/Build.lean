import LedgerWire.Schema.Basic

/-!
# Building schemas

Each function builds one node from parts that may be anything, and refuses parts that are no schema,
widths that are no width, lengths that are no length, names that are empty, no texts or taken, and
lists whose items would take no bytes.
-/

namespace LedgerWire

/-- What is offered as a schema: a schema, or any other value. -/
inductive Candidate
  | schema (s : Schema)
  | value (v : Value)
  deriving Inhabited, Repr

/-- The node that refuses a part. -/
inductive Owner
  | fixedBytes | option | vec | array | field | variant
  deriving DecidableEq, Repr

def Owner.name : Owner → Text
  | .fixedBytes => "FixedBytes"
  | .option => "Option"
  | .vec => "Vec"
  | .array => "Array"
  | .field => "field"
  | .variant => "variant"

/-- Why there is no such schema. -/
inductive SchemaFault
  | width (given : Value)
  | signedFlag
  | length (owner : Owner) (given : Value)
  | child (owner : Owner) (kind : Kind)
  | zeroSized (owner : Owner)
  | name (owner : Owner) (given : Value)
  | duplicateName (owner : Owner) (given : Text)
  | noVariants
  | tooManyVariants
  /-- Something else than a schema is given to encode or decode with. -/
  | notSchema (kind : Kind)
  /-- The fewest bytes of a part cannot be told. -/
  | size (fault : Quantity.Fault)
  deriving Repr

def SchemaFault.message : SchemaFault → Text
  | .width given => Text.join ["Unsupported integer width ", given.display]
  | .signedFlag => "Integer 'signed' flag must be a bool"
  | .length owner given =>
    Text.join [owner.name, " length must be a non-negative int, got ", given.quoted]
  | .child owner kind => Text.join [owner.name, " child must be a Schema, got ", kind.name]
  | .zeroSized owner => Text.join [owner.name, " elements must not be zero-sized"]
  | .name owner given => Text.join [owner.name, " names must be non-empty strings, got ", given.quoted]
  | .duplicateName owner given => Text.join ["Duplicate ", owner.name, " name '", given, "'"]
  | .noVariants => "Enum needs at least one variant"
  | .tooManyVariants =>
    Text.join ["Enum supports at most ", Text.ofNat maxVariants, " variants"]
  | .notSchema kind => Text.join ["Expected a Schema, got ", kind.name]
  | .size fault => fault.message

/-- The schema that is offered, to encode or decode with. -/
def Candidate.get : Candidate → Except SchemaFault Schema
  | .schema s => .ok s
  | .value v => .error (.notSchema v.kind)

/-- The schema that is offered as part of a node. -/
def Candidate.childOf (owner : Owner) : Candidate → Except SchemaFault Schema
  | .schema s => .ok s
  | .value v => .error (.child owner v.kind)

/-- The schema that is offered for the items of a list. -/
def Candidate.elementOf (owner : Owner) (c : Candidate) : Except SchemaFault Schema := do
  let inner ← c.childOf owner
  let size ← inner.minSize.mapError .size
  if size.isZero then .error (.zeroSized owner) else pure inner

/-- A length is an integer that is neither negative nor a truth value. -/
def lengthOf (owner : Owner) (given : Value) : Except SchemaFault Nat :=
  match given with
  | .int (.ofNat n) => .ok n
  | _ => .error (.length owner given)

namespace Schema

/-- The integers of `bits` bits. -/
def buildInteger (bits signed : Value) : Except SchemaFault Schema := do
  let build ← match bits with
    | .int n => (Width.ofBits? n).elim (.error (.width bits)) fun w => .ok (Schema.integer w)
    | .float x =>
      (x.toInt?.bind Width.ofBits?).elim (.error (.width bits)) fun w => .ok (Schema.floatInteger w)
    | _ => .error (.width bits)
  match signed with
  | .bool b => pure (build b)
  | _ => .error .signedFlag

/-- Byte strings of one length. -/
def buildFixedBytes (length : Value) : Except SchemaFault Schema :=
  (lengthOf .fixedBytes length).map .fixedBytes

/-- A value or nothing. -/
def buildOption (inner : Candidate) : Except SchemaFault Schema :=
  (inner.childOf .option).map .option

/-- Lists of any length. -/
def buildVec (inner : Candidate) : Except SchemaFault Schema :=
  (inner.elementOf .vec).map .vec

/-- Lists of one length. -/
def buildArray (inner : Candidate) (length : Value) : Except SchemaFault Schema := do
  let inner ← inner.elementOf .array
  let length ← lengthOf .array length
  pure (.array inner length)

/-- Names with their schemas, in order; `taken` are the names before them. -/
def namedChildren (owner : Owner) (taken : List Text) :
    List (Value × Candidate) → Except SchemaFault (List (Text × Schema))
  | [] => .ok []
  | (given, child) :: rest => do
    let .text name := given | .error (.name owner given)
    if name.isEmpty then .error (.name owner given)
    if taken.contains name then .error (.duplicateName owner name)
    let s ← child.childOf owner
    let children ← namedChildren owner (name :: taken) rest
    pure ((name, s) :: children)

/-- Mappings with one entry for each field. -/
def buildRecord (fields : List (Value × Candidate)) : Except SchemaFault Schema :=
  (namedChildren .field [] fields).map .record

/-- Mappings with one entry, for one of the variants. -/
def buildUnion (variants : List (Value × Candidate)) : Except SchemaFault Schema := do
  let children ← namedChildren .variant [] variants
  if children.isEmpty then .error .noVariants
  if maxVariants < children.length then .error .tooManyVariants
  pure (.union children)

end Schema

end LedgerWire
