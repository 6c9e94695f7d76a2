import LedgerWire.Envelope

/-!
# Calls of the exchange contract

The contract that takes plain records as arguments. Calls that only look take bare arguments, without
an envelope.
-/

namespace LedgerWire

/-- A call that changes the contract. -/
inductive ContractCall
  | init
  | addPool (token0 token1 : Value)
  | addLiquidity (poolId amount0 amount1 : Value)
  | removeLiquidity (poolId : Value)
  | swap (poolId amount0In amount1In : Value)

namespace ContractCall

def method : ContractCall → Text
  | init => "init"
  | addPool _ _ => "add_pool"
  | addLiquidity _ _ _ => "add_liquidity"
  | removeLiquidity _ => "remove_liquidity"
  | swap _ _ _ => "swap"

def args : ContractCall → Value
  | init => .bytes []
  | addPool token0 token1 => .map [(.text "token0", token0), (.text "token1", token1)]
  | addLiquidity poolId amount0 amount1 =>
    .map [(.text "pool_id", poolId), (.text "amount0", amount0), (.text "amount1", amount1)]
  | removeLiquidity poolId => .map [(.text "pool_id", poolId)]
  | swap poolId amount0In amount1In =>
    .map [(.text "pool_id", poolId), (.text "amount0_in", amount0In),
      (.text "amount1_in", amount1In)]

def encode (call : ContractCall) (c : Config) (spending : Spending) : Except Error Bytes :=
  c.encodeCall (.text call.method) call.args spending (.value .none)

end ContractCall

namespace ContractView

/-- The arguments to look at a pool. -/
def poolArgs (poolId : Value) : Except Error Bytes :=
  (Schema.u128.encode poolId).mapError .encode

end ContractView

namespace Account

/-- The bytes of an account. They are the arguments to look at its shares, too. -/
def encode (a : Account) : Except Error Bytes :=
  (Catalog.accountId.encode a.toValue).mapError .encode

/-- The account that bytes hold. -/
def decode (data : Value) : Except Error Account := do
  let v ← (Candidate.schema Catalog.accountId).deserialize data
  (ofValue v).mapError .account

end Account

end LedgerWire
