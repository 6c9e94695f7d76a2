import LedgerWire.Number.Numeral
import LedgerWire.Number.SquareRoot
import LedgerWire.Value.Parts

/-!
# Pools

A pool holds reserves of two tokens, whose product no swap lets fall, and shares in them. The quotes
are the integer formulas of the contract; every division goes to the floor.
-/

namespace LedgerWire

structure Pool where
  id : Int
  token0 : Entries
  token1 : Entries
  reserve0 : Int
  reserve1 : Int
  totalShares : Int

inductive PoolFault
  | field (fault : FieldFault)
  | number (fault : NumeralFault)
  | token (fault : MappingFault)
  /-- The first deposit into an empty pool is asked for with a negative product. -/
  | negativeProduct
  deriving DecidableEq, Repr

def PoolFault.message : PoolFault → Text
  | .field fault => fault.message
  | .number fault => fault.message
  | .token fault => fault.message
  | .negativeProduct => "isqrt() argument must be nonnegative"

namespace Pool

/-- The whole number at a name. -/
def numberAt (name : Text) (data : Value) : Except PoolFault Int := do
  let v ← (data.field name).mapError .field
  v.whole.mapError .number

/-- The token at a name. -/
def tokenAt (name : Text) (data : Value) : Except PoolFault Entries := do
  let v ← (data.field name).mapError .field
  v.toMapping.mapError .token

/-- The pool that a record describes. Numbers may be numerals or have fractions, which are cut. -/
def ofValue (data : Value) : Except PoolFault Pool := do
  let id ← numberAt "id" data
  let token0 ← tokenAt "token0" data
  let token1 ← tokenAt "token1" data
  let reserve0 ← numberAt "reserve0" data
  let reserve1 ← numberAt "reserve1" data
  let totalShares ← numberAt "total_shares" data
  pure ⟨id, token0, token1, reserve0, reserve1, totalShares⟩

def toValue (p : Pool) : Value :=
  .map [(.text "id", .int p.id), (.text "token0", .map p.token0), (.text "token1", .map p.token1),
    (.text "reserve0", .int p.reserve0), (.text "reserve1", .int p.reserve1),
    (.text "total_shares", .int p.totalShares)]

/-- The pool as a message shows it. -/
def quoted (p : Pool) : Text :=
  Text.join ["PoolState(id=", Text.ofInt p.id, ", reserve0=", Text.ofInt p.reserve0,
    ", reserve1=", Text.ofInt p.reserve1, ", total_shares=", Text.ofInt p.totalShares, ")"]

/-- What a pool gives of one reserve for an amount added to the other. -/
def output (reserveIn reserveOut amount : Int) : Int :=
  if amount ≤ 0 ∨ reserveIn + amount = 0 then 0
  else (reserveOut * amount).fdiv (reserveIn + amount)

/-- What a swap gives: for a positive amount of the first token some of the second, and otherwise the
other way round. -/
def swapOutput (p : Pool) (amount0 amount1 : Int) : Int :=
  if 0 < amount0 then output p.reserve0 p.reserve1 amount0
  else output p.reserve1 p.reserve0 amount1

/-- The shares for a deposit. The first one into an empty pool gets the root of the product. -/
def liquidityShares (p : Pool) (amount0 amount1 : Int) : Except PoolFault Int :=
  if p.totalShares = 0 then
    match amount0 * amount1 with
    | .ofNat product => .ok (squareRoot product)
    | .negSucc _ => .error .negativeProduct
  else if p.reserve0 = 0 ∨ p.reserve1 = 0 then .ok 0
  else .ok (min ((amount0 * p.totalShares).fdiv p.reserve0) ((amount1 * p.totalShares).fdiv p.reserve1))

/-- What is paid out for shares. -/
def withdrawal (p : Pool) (shares : Int) : Int × Int :=
  if p.totalShares = 0 then (0, 0)
  else ((shares * p.reserve0).fdiv p.totalShares, (shares * p.reserve1).fdiv p.totalShares)

end Pool

end LedgerWire
