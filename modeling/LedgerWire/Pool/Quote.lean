import LedgerWire.Number.Quantity
import LedgerWire.Pool.Basic

/-!
# Quotes for any value

The quotes of a pool for amounts that may be anything. For integers they are those of `Pool`; amounts
with fractions go through the same formulas in floating-point numbers; of what is no number the first
operation that has no meaning is reported.
-/

namespace LedgerWire

inductive Operator
  | times
  | floorDivide
  deriving DecidableEq, Repr

def Operator.symbol : Operator → Text
  | .times => "*"
  | .floorDivide => "//"

/-- Why there is no quote for amounts. -/
inductive QuoteFault
  | quantity (fault : Quantity.Fault)
  | incomparable (fault : Value.Incomparable)
  | operands (operator : Operator) (left right : Kind)
  /-- A sequence is to be repeated as often as something that is no integer says. -/
  | repetition (kind : Kind)
  | hugeRepetition
  /-- The root of something that is no integer is asked for. -/
  | root (kind : Kind)
  | pool (fault : PoolFault)
  deriving DecidableEq, Repr

def QuoteFault.message : QuoteFault → Text
  | .quantity fault => fault.message
  | .incomparable fault => fault.message
  | .operands operator left right =>
    Text.join ["unsupported operand type(s) for ", operator.symbol, ": '", left.name, "' and '",
      right.name, "'"]
  | .repetition kind => Text.join ["can't multiply sequence by non-int of type '", kind.name, "'"]
  | .hugeRepetition => "cannot fit 'int' into an index-sized integer"
  | .root kind => Text.join ["'", kind.name, "' object cannot be interpreted as an integer"]
  | .pool fault => fault.message

/-- Texts, byte strings and lists can be repeated. -/
def Kind.isSequence : Kind → Bool
  | .text => true
  | .bytes => true
  | .list => true
  | _ => false

namespace Pool

/-- The fault of using a sequence, repeated as often as `count` says, for something. -/
def repeated (count : Value) (fault : QuoteFault) : QuoteFault :=
  match count.toInt? with
  | some n => if n < -2 ^ 63 ∨ 2 ^ 63 ≤ n then .hugeRepetition else fault
  | none => .repetition count.kind

/-- The share of `whole` that `part` of `total` amounts to, for a total that is not zero. -/
def proportion (part : Value) (whole total : Int) : Except QuoteFault Quantity :=
  match part.toQuantity? with
  | some q => (((q.mul (.int whole)).bind (·.floorDiv (.int total)))).mapError .quantity
  | none =>
    if part.kind.isSequence then
      .error (repeated (.int whole) (.operands .floorDivide part.kind .int))
    else .error (.operands .times part.kind .int)

/-- What a pool gives of one reserve for an amount added to the other. -/
def outputOf (reserveIn reserveOut : Int) (amount : Value) : Except QuoteFault Quantity := do
  if ← (Value.ask .lessOrEqual amount (.int 0)).mapError .incomparable then return .int 0
  let q := amount.toQuantity?.getD (.int 0)
  let sum ← ((Quantity.int reserveIn).add q).mapError .quantity
  if sum.isZero then return .int 0
  (((Quantity.int reserveOut).mul q).bind (·.floorDiv sum)).mapError .quantity

/-- `Pool.swapOutput` for any amounts. -/
def quoteSwap (p : Pool) (amount0 amount1 : Value) : Except QuoteFault Quantity := do
  match amount0.toInt?, amount1.toInt? with
  | some n0, some n1 => pure (.int (p.swapOutput n0 n1))
  | _, _ =>
    if ← (Value.ask .greater amount0 (.int 0)).mapError .incomparable then
      outputOf p.reserve0 p.reserve1 amount0
    else outputOf p.reserve1 p.reserve0 amount1

/-- The root of a product of which one factor at least is no integer: there is none. -/
def rootFault (a b : Value) : QuoteFault :=
  match a.toQuantity?, b.toQuantity? with
  | some x, some y =>
    match x.mul y with
    | .ok _ => .root .float
    | .error fault => .quantity fault
  | _, _ =>
    if a.kind.isSequence then repeated b (.root a.kind)
    else if b.kind.isSequence then repeated a (.root b.kind)
    else .operands .times a.kind b.kind

/-- `Pool.liquidityShares` for any amounts. -/
def quoteLiquidity (p : Pool) (amount0 amount1 : Value) : Except QuoteFault Quantity :=
  match amount0.toInt?, amount1.toInt? with
  | some n0, some n1 => ((p.liquidityShares n0 n1).map .int).mapError .pool
  | _, _ =>
    if p.totalShares = 0 then .error (rootFault amount0 amount1)
    else if p.reserve0 = 0 ∨ p.reserve1 = 0 then .ok (.int 0)
    else do
      let shares0 ← proportion amount0 p.totalShares p.reserve0
      let shares1 ← proportion amount1 p.totalShares p.reserve1
      pure (shares0.least shares1)

/-- `Pool.withdrawal` for any shares. -/
def quoteWithdrawal (p : Pool) (shares : Value) : Except QuoteFault (Quantity × Quantity) :=
  match shares.toInt? with
  | some n => .ok (.int (p.withdrawal n).1, .int (p.withdrawal n).2)
  | none =>
    if p.totalShares = 0 then .ok (.int 0, .int 0)
    else do
      let amount0 ← proportion shares p.reserve0 p.totalShares
      let amount1 ← proportion shares p.reserve1 p.totalShares
      pure (amount0, amount1)

end Pool

end LedgerWire
