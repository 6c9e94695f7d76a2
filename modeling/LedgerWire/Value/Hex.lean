import LedgerWire.Text.Hex
import LedgerWire.Value.Order

/-!
# Hexadecimal of a length that a value gives
-/

namespace LedgerWire

/-- Reads a text that has to spell as many bytes as a value says; nothing leaves the number open. -/
def Hex.decodeFor (length : Value) (t : Text) : Except Hex.Fault Bytes :=
  match length with
  | .none => decode t
  | length => decodeFitting (fun n => (Value.int n).same length) length.display t

end LedgerWire
