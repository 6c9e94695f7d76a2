import LedgerWire.Error

/-!
# Coding with an offered schema

Encoding and decoding where schema and bytes are offered as values, and may turn out to be neither.
-/

namespace LedgerWire

/-- Encodes a value with what is offered as a schema. -/
def Candidate.encode (c : Candidate) (v : Value) : Except Error Bytes := do
  let s ← c.get.mapError .schema
  (s.encode v).mapError .encode

/-- The schema and the bytes to decode with it. -/
def Candidate.toDecode (c : Candidate) (data : Value) : Except Error (Schema × Bytes) := do
  let s ← c.get.mapError .schema
  match data with
  | .bytes bs => pure (s, bs)
  | v => .error (.notBytes v.kind)

/-- Decodes a value at the beginning of what is offered as bytes, and tells how many it took. -/
def Candidate.decode (c : Candidate) (data : Value) : Except Error (Value × Nat) := do
  let (s, bs) ← c.toDecode data
  (s.decode bs).mapError .decode

/-- Decodes a value that spans what is offered as bytes. -/
def Candidate.deserialize (c : Candidate) (data : Value) : Except Error Value := do
  let (s, bs) ← c.toDecode data
  (s.deserialize bs).mapError .decode

end LedgerWire
