import LedgerWire.Codec

/-!
# Event logs

A log is a list of numbered events. What an event says is a mapping with one entry, for its kind.
Nodes report logs in base64.
-/

namespace LedgerWire

structure Event where
  data : Value
  id : Value

namespace Event

def toValue (e : Event) : Value := .map [(.text "data", e.data), (.text "id", e.id)]

/-- Kind and payload of an event. -/
def entry (e : Event) : Except Error (Value × Value) :=
  match e.data with
  | .map [pair] => .ok pair
  | .map [] => .error (.event .noKind)
  | .map _ => .error (.event .severalKinds)
  | v => .error (.event (.noMapping v.kind))

def kind (e : Event) : Except Error Value := e.entry.map (·.1)

def payload (e : Event) : Except Error Value := e.entry.map (·.2)

/-- The event that a decoded record describes. -/
def ofValue (v : Value) : Except Error Event := do
  let data ← (v.field "data").mapError .field
  let id ← (v.field "id").mapError .field
  pure ⟨data, id⟩

/-- The events of decoded records. -/
def ofValues : List Value → Except Error (List Event)
  | [] => .ok []
  | v :: vs => do
    let event ← ofValue v
    let events ← ofValues vs
    pure (event :: events)

end Event

namespace Log

/-- The events that bytes hold. -/
def decode (data : Value) : Except Error (List Event) := do
  let v ← (Candidate.schema Catalog.log).deserialize data
  match v with
  | .list records => Event.ofValues records
  | _ => pure []

/-- The events that a text in base64 holds. -/
def decodeBase64 (t : Text) : Except Error (List Event) := do
  let bs ← (Base64.decode t).mapError .base64
  decode (.bytes bs)

def encode (events : List Event) : Except Error Bytes :=
  (Catalog.log.encode (.list (events.map Event.toValue))).mapError .encode

/-- Whether numbers never fall from one event to the next. -/
def isMonotonic : List Event → Except Error Bool
  | a :: b :: events => do
    if ← (Value.ask .lessOrEqual a.id b.id).mapError .order then isMonotonic (b :: events)
    else pure false
  | _ => .ok true

end Log

end LedgerWire
