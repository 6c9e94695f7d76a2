import LedgerWire.Value.Bytes

/-!
# Numbers as seeds

The seeds of addresses spell numbers greatest byte first, in a fixed size.
-/

namespace LedgerWire

/-- Why a value is no number of the size. -/
inductive SeedFault
  | notInteger (kind : Kind)
  | negative
  | lengthKind (kind : Kind)
  | negativeLength
  | tooLarge (n : Nat) (length : Value)
  deriving Repr

def SeedFault.message : SeedFault → Text
  | .notInteger kind => Text.join ["Expected an int, got ", kind.name]
  | .negative => "Negative values cannot be used as seed ids"
  | .lengthKind kind =>
    Text.join ["'", kind.name, "' object cannot be interpreted as an integer"]
  | .negativeLength => "length argument must be non-negative"
  | .tooLarge n length =>
    Text.join [Text.ofNat n, " does not fit in ", length.display, " bytes"]

namespace Seed

/-- A number in `length` bytes, greatest byte first. A length that no byte string has holds no number,
nor does a negative one out of the range of 64 bits. -/
def ofNumber (value length : Value) : Except SeedFault Bytes :=
  match value with
  | .int (.ofNat n) =>
    match length.toInt? with
    | some size =>
      if size < -2 ^ 63 ∨ Bytes.maxLength < size then .error (.tooLarge n length)
      else if size < 0 then .error .negativeLength
      else if n < 256 ^ size.toNat then .ok (Bytes.ofNatBE size.toNat n)
      else .error (.tooLarge n length)
    | none => .error (.lengthKind length.kind)
  | .int (.negSucc _) => .error .negative
  | v => .error (.notInteger v.kind)

/-- A number of 128 bits. -/
def ofId (value : Value) : Except SeedFault Bytes := ofNumber value (.int 16)

/-- The number that a value spells, greatest byte first. -/
def toNumber (value : Value) : Except CastFault Nat := value.gatherBytes.map Bytes.toNatBE

end Seed

end LedgerWire
