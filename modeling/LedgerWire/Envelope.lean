import LedgerWire.Codec

/-!
# Envelopes

Every call of a contract travels in an envelope: the method, its encoded arguments, and what the call
may spend. The arguments are opaque bytes here; the schema of the method decodes them.
-/

namespace LedgerWire

structure Envelope where
  method : Value
  args : Bytes
  gas : Value
  deposit : Value

namespace Envelope

def record (method args gas deposit : Value) : Value :=
  .map [(.text "method", method), (.text "args", args), (.text "gas", gas),
    (.text "deposit", deposit)]

def toValue (e : Envelope) : Value := record e.method (.bytes e.args) e.gas e.deposit

/-- The bytes of an envelope with the given parts. -/
def build (method args gas deposit : Value) : Except Error Bytes :=
  (Catalog.transaction.encode (record method args gas deposit)).mapError .encode

def toBytes (e : Envelope) : Except Error Bytes := build e.method (.bytes e.args) e.gas e.deposit

/-- The envelope that a record describes; its arguments are cast to bytes. -/
def ofValue (data : Value) : Except Error Envelope := do
  let method ← (data.field "method").mapError .field
  let args ← (data.field "args").mapError .field
  let args ← args.castBytes.mapError .cast
  let gas ← (data.field "gas").mapError .field
  let deposit ← (data.field "deposit").mapError .field
  pure ⟨method, args, gas, deposit⟩

/-- The envelope that bytes hold. -/
def decode (data : Value) : Except Error Envelope := do
  let v ← (Candidate.schema Catalog.transaction).deserialize data
  ofValue v

/-- The schema for the arguments of a method: the one that is offered, or else that of the catalogue. -/
def argsSchema (method : Value) (offered : Candidate) : Except Error Candidate :=
  match offered with
  | .value .none => (Catalog.argsOf method).map .schema |>.mapError .catalog
  | c => .ok c

/-- The arguments of the call. -/
def decodeArgs (e : Envelope) (offered : Candidate) : Except Error Value := do
  let s ← argsSchema e.method offered
  s.deserialize (.bytes e.args)

end Envelope

/-- What a call may spend; nothing stands for what the configuration says. -/
structure Spending where
  gas : Value := .none
  deposit : Value := .none

namespace Config

/-- A value unless it is nothing, and otherwise the other one. -/
def orDefault (v other : Value) : Value :=
  match v with
  | .none => other
  | v => v

/-- The envelope of a call: first the arguments are encoded by their schema, then all of it. -/
def encodeCall (c : Config) (method args : Value) (spending : Spending) (offered : Candidate) :
    Except Error Bytes := do
  let s ← Envelope.argsSchema method offered
  let args ← s.encode args
  Envelope.build method (.bytes args) (orDefault spending.gas c.spending.gas)
    (orDefault spending.deposit c.spending.deposit)

end Config

end LedgerWire
