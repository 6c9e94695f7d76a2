import LedgerWire.Codec
import LedgerWire.Sorting.Basic

/-!
# Pools and shares on the wire

What a node answers when it is asked for pools and for the shares of an account. Shares are a mapping
from pools to numbers, written in the order of the pools.
-/

namespace LedgerWire

namespace Pool

/-- The pool that bytes hold. -/
def decode (data : Value) : Except Error Pool := do
  let v ← (Candidate.schema Catalog.pool).deserialize data
  (ofValue v).mapError .pool

/-- The pools of decoded records. -/
def ofValues : List Value → Except Error (List Pool)
  | [] => .ok []
  | v :: vs => do
    let first ← (ofValue v).mapError .pool
    let rest ← ofValues vs
    pure (first :: rest)

/-- The pools that bytes hold. -/
def decodeList (data : Value) : Except Error (List Pool) := do
  let v ← (Candidate.schema Catalog.pools).deserialize data
  match v with
  | .list records => ofValues records
  | _ => pure []

/-- The pool that bytes hold, or none for an identity that is not known. -/
def decodeOptional (data : Value) : Except Error (Option Pool) := do
  let v ← (Candidate.schema Catalog.optionalPool).deserialize data
  match v with
  | .none => pure none
  | record => (ofValue record).map some |>.mapError .pool

end Pool

namespace Shares

/-- Shares by pool. -/
def ofValues : List Value → Except Error Entries
  | [] => .ok []
  | v :: vs => do
    let id ← (v.field "pool_id").mapError .field
    let shares ← (v.field "shares").mapError .field
    let rest ← ofValues vs
    pure ((id, shares) :: rest)

/-- The shares that bytes hold. Of several entries for a pool the last counts. -/
def decode (data : Value) : Except Error Entries := do
  let v ← (Candidate.schema Catalog.shares).deserialize data
  match v with
  | .list records => (ofValues records).map Entries.ofPairs
  | _ => pure []

/-- The entries with the integers that tell their pools, if all pools are told by integers. -/
def byInteger? : Entries → Option (List (Int × Value))
  | [] => some []
  | (.int id, n) :: entries => (byInteger? entries).map ((id, n) :: ·)
  | _ :: _ => none

/-- The entries in the order of their pools. Integers are simply put in order. With any other key the
shares cannot be written, but which fault is found first hangs on the comparisons that sorting makes. -/
def inOrder (shares : Entries) : Except Value.Incomparable Entries :=
  match byInteger? shares with
  | some entries => .ok ((entries.mergeSort fun a b => a.1 ≤ b.1).map fun (id, n) => (.int id, n))
  | none => Sorting.sort (fun a b => Value.ask .less a.1 b.1) shares

/-- The bytes of shares. -/
def encode (shares : Entries) : Except Error Bytes := do
  let sorted ← (inOrder shares).mapError .shares
  let records := sorted.map fun (id, n) => Value.map [(.text "pool_id", id), (.text "shares", n)]
  (Catalog.shares.encode (.list records)).mapError .encode

end Shares

end LedgerWire
