import LedgerWire.Amm.Contract

/-!
# Calls of the exchange program

The build of the exchange that keeps its state in accounts derived from its identity. A call names the
accounts that it touches, the owner first, and carries one instruction.
-/

namespace LedgerWire

/-- The accounts of a program. -/
inductive ProgramAccount
  | state
  | pool (id : Value)
  | userShares (owner id : Value)

namespace ProgramAccount

def asciiBytes (s : String) : Bytes := s.toList.map fun c => UInt8.ofNat c.toNat

/-- What the address of an account is derived from. -/
def seeds : ProgramAccount → Except Error (List Bytes)
  | state => .ok [asciiBytes "state"]
  | pool id => do
    let id ← (Seed.ofId id).mapError .seed
    pure [asciiBytes "pool", id]
  | userShares owner id => do
    let owner ← owner.castBytes.mapError .cast
    let id ← (Seed.ofId id).mapError .seed
    pure [asciiBytes "user_pool_shares", owner, id]

/-- The address of an account of a program. -/
def address (account : ProgramAccount) (scheme : Address.Scheme) (program : Value) :
    Except Error Bytes := do
  let seeds ← account.seeds
  let (address, _) ← (scheme.findFor (.list (seeds.map .bytes)) program).mapError .address
  pure address

end ProgramAccount

inductive ProgramCall
  | init
  | addPool (nextPoolId token0 token1 : Value)
  | addLiquidity (poolId amount0 amount1 : Value)
  | removeLiquidity (poolId : Value)
  | swap (poolId amount0In amount1In : Value)

namespace ProgramCall

def method : ProgramCall → Text
  | init => "init"
  | addPool _ _ _ => "add_pool"
  | addLiquidity _ _ _ => "add_liquidity"
  | removeLiquidity _ => "remove_liquidity"
  | swap _ _ _ => "swap"

/-- The accounts that a call of `owner` touches besides the owner. -/
def touched (owner : Value) : ProgramCall → List ProgramAccount
  | init => [.state]
  | addPool nextPoolId _ _ => [.state, .pool nextPoolId]
  | addLiquidity poolId _ _ => [.pool poolId, .userShares owner poolId]
  | removeLiquidity poolId => [.pool poolId, .userShares owner poolId]
  | swap poolId _ _ => [.pool poolId]

def instruction (call : ProgramCall) : Value :=
  let args : Entries := match call with
    | init => []
    | addPool _ token0 token1 => [(.text "token0", token0), (.text "token1", token1)]
    | addLiquidity _ amount0 amount1 => [(.text "amount0", amount0), (.text "amount1", amount1)]
    | removeLiquidity _ => []
    | swap _ amount0In amount1In =>
      [(.text "amount0_in", amount0In), (.text "amount1_in", amount1In)]
  .map [(.text call.method, .map args)]

/-- How many bytes a key of an account has. -/
def keySize : Nat := 32

def checkKey : Value → Except AccountKeyFault Bytes
  | .bytes bs => if bs.length = keySize then .ok bs else .error (.length bs.length)
  | v => .error (.kind v.kind)

/-- Addresses in order; the first that cannot be derived is reported. -/
def addresses (scheme : Address.Scheme) (program : Value) :
    List ProgramAccount → Except Error (List Bytes)
  | [] => .ok []
  | account :: accounts => do
    let first ← account.address scheme program
    let rest ← addresses scheme program accounts
    pure (first :: rest)

/-- The accounts and the instruction of a call. The accounts are derived before the key of the owner
is checked. -/
def context (call : ProgramCall) (scheme : Address.Scheme) (program owner : Value) :
    Except Error Value := do
  let derived ← addresses scheme program (call.touched owner)
  let owner ← (checkKey owner).mapError .accountKey
  let instruction ← (Catalog.programInstruction.encode call.instruction).mapError .encode
  pure (.map [(.text "accounts", .list ((owner :: derived).map .bytes)),
    (.text "instruction_data", .bytes instruction)])

def encodeWith (call : ProgramCall) (scheme : Address.Scheme) (c : Config) (program owner : Value)
    (spending : Spending) : Except Error Bytes := do
  let context ← call.context scheme program owner
  c.encodeCall (.text call.method) context spending (.schema Catalog.programContext)

/-- The envelope of a call of `owner`, in the scheme of the ledger. -/
def encode (call : ProgramCall) (c : Config) (program owner : Value) (spending : Spending) :
    Except Error Bytes :=
  call.encodeWith Address.ledger c program owner spending

end ProgramCall

namespace ProgramState

/-- The identity of the next pool, from the bytes of the state account. -/
def decodeNextPoolId (data : Value) : Except Error Value := do
  let v ← (Candidate.schema Catalog.programState).deserialize data
  (v.field "next_pool_id").mapError .field

/-- A pool, from the bytes of its account. -/
def decodePool (data : Value) : Except Error Value :=
  (Candidate.schema Catalog.programPool).deserialize data

end ProgramState

end LedgerWire
