import LedgerWire.Number.Decimal

/-!
# Amounts

An amount of whole tokens, given as a number or a decimal text, in base units: a token has `10 ^ 18`
of them. What is no number, needs a smaller unit or is negative is refused.
-/

namespace LedgerWire

inductive AmountFault
  | invalid (given : Value)
  | fraction (given : Value)
  | negative
  | infinite
  | arithmetic (fault : DecimalFault)
  deriving Repr

def AmountFault.message : AmountFault → Text
  | .invalid given => Text.join ["Invalid amount ", given.quoted]
  | .fraction given => Text.join [given.display, " has more than 18 decimal places"]
  | .negative => "Amounts cannot be negative"
  | .infinite => "cannot convert Infinity to integer"
  | .arithmetic fault => fault.message

namespace Amount

/-- The base units of a whole token. -/
def unitsPerToken : Nat := 10 ^ 18

/-- The base units of an amount. The amount is taken as it is shown, multiplied in the wide context,
and tested for a fraction before its sign. -/
def parse (given : Value) : Except AmountFault Int :=
  match DecimalValue.read? given.display with
  | none => .error (.invalid given)
  | some .signalingNan => .error (.invalid given)
  | some .quietNan => .error (.fraction given)
  | some (.infinite negative) => .error (if negative then .negative else .infinite)
  | some (.finite x) =>
    match x.mul .wide ⟨false, unitsPerToken, 0⟩ with
    | .error fault => .error (.arithmetic fault)
    | .ok units =>
      if !units.isWhole then .error (.fraction given)
      else if units.negative ∧ units.coefficient ≠ 0 then .error .negative
      else .ok units.wholePart

end Amount

end LedgerWire
