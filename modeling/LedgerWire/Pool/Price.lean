import LedgerWire.Number.Decimal
import LedgerWire.Pool.Basic

/-!
# Prices

The price of the first token of a pool in units of the second, with each reserve scaled by the decimal
places of its token.
-/

namespace LedgerWire

inductive PriceFault
  | arithmetic (fault : DecimalFault)
  | decimals (kind : Kind)
  deriving DecidableEq, Repr

def PriceFault.message : PriceFault → Text
  | .arithmetic fault => fault.message
  | .decimals kind =>
    Text.join ["unsupported operand type(s) for ** or pow(): 'decimal.Decimal' and '", kind.name,
      "'"]

namespace Pool

/-- Ten to the number of decimal places of a token, which is zero if the token has none. -/
def scale (token : Entries) : Except PriceFault Decimal :=
  let places := (token.field? "decimals").getD (.int 0)
  match places.toInt? with
  | some n => (Decimal.tenTo .standard n).mapError .arithmetic
  | none => .error (.decimals places.kind)

/-- The price; nothing in reserve has none. -/
def price (p : Pool) : Except PriceFault Decimal :=
  if p.reserve0 = 0 then .ok (.ofInt 0)
  else do
    let scale0 ← scale p.token0
    let scale1 ← scale p.token1
    let amount1 ← ((Decimal.ofInt p.reserve1).div .standard scale1).mapError .arithmetic
    let amount0 ← ((Decimal.ofInt p.reserve0).div .standard scale0).mapError .arithmetic
    (amount1.div .standard amount0).mapError .arithmetic

end Pool

end LedgerWire
