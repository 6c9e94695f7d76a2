import LedgerWire.Schema.Basic

/-!
# The schemas of the ledger

Everything that a client sends to a node or reads from one has a schema with a name. `methodArgs`
gives each method of a contract the schema of its arguments.
-/

namespace LedgerWire

namespace Schema

def u8 : Schema := .integer .w8 false
def u16 : Schema := .integer .w16 false
def u32 : Schema := .integer .w32 false
def u64 : Schema := .integer .w64 false
def u128 : Schema := .integer .w128 false

end Schema

namespace Catalog

open Schema (u8 u16 u32 u64 u128 unit)

/-- A call of a contract: its method, its encoded arguments, and what it may spend. -/
def transaction : Schema :=
  .record [("method", .text), ("args", .bytes), ("gas", u64), ("deposit", u128)]

def initArgs : Schema := .bytes

def addPoolArgs : Schema := .record [("token0", .text), ("token1", .text)]

def addLiquidityArgs : Schema :=
  .record [("pool_id", u128), ("amount0", u128), ("amount1", u128)]

def removeLiquidityArgs : Schema := .record [("pool_id", u128)]

def swapArgs : Schema :=
  .record [("pool_id", u128), ("amount0_in", u128), ("amount1_in", u128)]

def token : Schema := .record [("symbol", .text), ("address", .text), ("decimals", u8)]

def pool : Schema :=
  .record [("id", u128), ("token0", token), ("token1", token), ("reserve0", u128),
    ("reserve1", u128), ("total_shares", u128)]

def pools : Schema := .vec pool

/-- The accounts that a program touches, and the encoded instruction for it. -/
def programContext : Schema :=
  .record [("accounts", .vec (.fixedBytes 32)), ("instruction_data", .bytes)]

def programInstruction : Schema :=
  .union [("init", unit),
    ("add_pool", .record [("token0", .text), ("token1", .text)]),
    ("add_liquidity", .record [("amount0", u128), ("amount1", u128)]),
    ("remove_liquidity", unit),
    ("swap", .record [("amount0_in", u128), ("amount1_in", u128)])]

def programState : Schema := .record [("next_pool_id", u128)]

def programToken : Schema := .record [("symbol", .text), ("address", .text)]

def programPool : Schema :=
  .record [("id", u128), ("token0", programToken), ("token1", programToken), ("reserve0", u128),
    ("reserve1", u128), ("total_shares", u128)]

def accountId : Schema := .union [("multivm", .text), ("evm", .fixedBytes 20)]

def optionalPool : Schema := .option pool

/-- The shares that an account holds of one pool. -/
def poolShares : Schema := .record [("pool_id", u128), ("shares", u128)]

def shares : Schema := .vec poolShares

def orderSide : Schema := .union [("ask", unit), ("bid", unit)]

def orderStatus : Schema :=
  .union [("new", unit), ("cancelled", unit), ("filled", unit), ("partially_filled", unit),
    ("limit_reached", unit)]

def balanceChange : Schema := .union [("external", unit), ("locked", u128), ("trade", u128)]

def event : Schema :=
  .union [
    ("orderbook", .record [("market_id", u16), ("price", u128), ("quantity", u128),
      ("side", orderSide)]),
    ("order", .record [("market_id", u16), ("order_id", u128), ("user_id", .text), ("price", u128),
      ("average_price", u128), ("quantity", u128), ("remaining", u128), ("side", orderSide),
      ("status", orderStatus), ("client_order_id", .option u32)]),
    ("trade", .record [("market_id", u16), ("maker_order_id", u128), ("taker_order_id", u128),
      ("maker_fee", u128), ("maker_fee_token_id", u16), ("taker_fee", u128),
      ("taker_fee_token_id", u16), ("is_maker_fee_rebate", .bool), ("price", u128),
      ("quantity", u128), ("side", orderSide)]),
    ("balance", .record [("user_id", .text), ("token_id", u16), ("amount", u128),
      ("increased", .bool), ("change_type", balanceChange)])]

def numberedEvent : Schema := .record [("data", event), ("id", u64)]

def log : Schema := .vec numberedEvent

/-- The schema of the arguments of each method. -/
def methodArgs : List (Text × Schema) :=
  [("init", initArgs), ("add_pool", addPoolArgs), ("add_liquidity", addLiquidityArgs),
    ("remove_liquidity", removeLiquidityArgs), ("swap", swapArgs), ("get_pool", u128),
    ("get_shares", accountId)]

/-- All schemas with a name. -/
def named : List (Text × Schema) :=
  [("transaction", transaction), ("init_args", initArgs), ("add_pool_args", addPoolArgs),
    ("add_liquidity_args", addLiquidityArgs), ("remove_liquidity_args", removeLiquidityArgs),
    ("swap_args", swapArgs), ("token", token), ("pool", pool), ("get_pools", pools),
    ("get_pool_args", u128), ("get_pool", optionalPool), ("get_shares_args", accountId),
    ("pool_shares", poolShares), ("get_shares", shares), ("solana_context", programContext),
    ("solana_amm_instruction", programInstruction), ("solana_amm_state", programState),
    ("solana_token", programToken), ("solana_amm_pool", programPool), ("account_id", accountId),
    ("order_side", orderSide), ("order_status", orderStatus),
    ("balance_change_info", balanceChange), ("event", event), ("event_with_meta", numberedEvent),
    ("logs", log)]

/-- A name or method that is not known. -/
inductive Unknown
  | schema (name : Text)
  | method (name : Value)
  /-- A method is looked up by something that cannot be a key. -/
  | noKey (kind : Kind)
  deriving Repr

def Unknown.message : Unknown → Text
  | .schema n => Text.join ["Unknown schema '", n, "'"]
  | .method n => Text.join ["No argument schema registered for method '", n.display, "'"]
  | .noKey kind => Text.join ["unhashable type: '", kind.name, "'"]

/-- The schema of a name. -/
def get (name : Text) : Except Unknown Schema :=
  match named.lookup name with
  | some s => .ok s
  | none => .error (.schema name)

/-- The schema of the arguments of a method. -/
def argsOf (method : Value) : Except Unknown Schema :=
  match method with
  | .text t => ((methodArgs.lookup t).map .ok).getD (.error (.method method))
  | .list _ => .error (.noKey .list)
  | .map _ => .error (.noKey .map)
  | _ => .error (.method method)

end Catalog

end LedgerWire
