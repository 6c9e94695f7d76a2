import LedgerWire.Schema.Build

/-!
# Blueprints

A tree of calls that build a schema. Widths, lengths, names and parts may be anything. A node is built
after its parts, which are built in their order; the first refusal is the answer.
-/

namespace LedgerWire

inductive Blueprint
  /-- A value that stands where a schema is expected. -/
  | value (v : Value)
  | integer (bits signed : Value)
  | bool
  | text
  | bytes
  | fixedBytes (length : Value)
  | option (inner : Blueprint)
  | vec (inner : Blueprint)
  | array (inner : Blueprint) (length : Value)
  | record (fields : List (Value × Blueprint))
  | union (variants : List (Value × Blueprint))
  deriving Inhabited, Repr

namespace Blueprint

mutual

/-- What is offered as a schema once all calls are made. -/
def offer : Blueprint → Except SchemaFault Candidate
  | .value v => .ok (.value v)
  | .integer bits signed => (Schema.buildInteger bits signed).map .schema
  | .bool => .ok (.schema .bool)
  | .text => .ok (.schema .text)
  | .bytes => .ok (.schema .bytes)
  | .fixedBytes length => (Schema.buildFixedBytes length).map .schema
  | .option inner => do (Schema.buildOption (← offer inner)).map .schema
  | .vec inner => do (Schema.buildVec (← offer inner)).map .schema
  | .array inner length => do (Schema.buildArray (← offer inner) length).map .schema
  | .record fields => do (Schema.buildRecord (← offerEach fields)).map .schema
  | .union variants => do (Schema.buildUnion (← offerEach variants)).map .schema

def offerEach : List (Value × Blueprint) → Except SchemaFault (List (Value × Candidate))
  | [] => .ok []
  | (name, b) :: rest => do
    let c ← offer b
    let cs ← offerEach rest
    pure ((name, c) :: cs)

end

/-- The schema that the calls build. -/
def build (b : Blueprint) : Except SchemaFault Schema := do (← b.offer).get

end Blueprint

end LedgerWire
