import LedgerWire.Sorting.Merge
import LedgerWire.Sorting.Run

/-!
# Sorting by comparisons that may fail

A stable sort of items that are only compared with each other. Where two items cannot be compared, or
the answers contradict each other, the outcome hangs on the comparisons that are made, so these are
fixed: runs are taken from the front, and neighbours merged as their place in the whole asks for.
-/

namespace LedgerWire.Sorting

variable {ε α : Type}

/-- The least length of runs, from 32 to 64: as near as can be to a part of the whole that is a power
of two. `odd` tells whether anything was lost in halving. -/
def minimumRun : (fuel size : Nat) → (odd : Bool) → Nat
  | 0, size, _ => size
  | fuel + 1, size, odd =>
    if 64 ≤ size then minimumRun fuel (size / 2) (odd || size % 2 == 1) else size + odd.toNat

/-- The number of binary digits, of two fractions of `size`, up to the first that differs. -/
def differingDigit (size : Nat) : (fuel a b : Nat) → Nat
  | 0, _, _ => 0
  | fuel + 1, a, b =>
    if size ≤ a then 1 + differingDigit size fuel (2 * (a - size)) (2 * (b - size))
    else if size ≤ b then 1
    else 1 + differingDigit size fuel (2 * a) (2 * b)

/-- A run that waits to be merged. -/
structure Pending (α : Type) where
  start : Nat
  items : List α
  /-- How deep the border to the run after it lies, if the whole is halved again and again. -/
  depth : Nat

/-- How deep the border lies between a run and the `next` items after it. -/
def Pending.border (run : Pending α) (size next : Nat) : Nat :=
  let middle := 2 * run.start + run.items.length
  differingDigit size (size + 2) middle (middle + run.items.length + next)

/-- Merges the newest run with those before it whose border lies deeper than `depth`. -/
def settle (less : α → α → Except ε Bool) (depth patience : Nat) (newest : Pending α) :
    List (Pending α) → Except ε (List (Pending α) × Nat)
  | [] => .ok ([{ newest with depth := depth }], patience)
  | older :: rest => do
    if depth < older.depth then
      let (items, patience) ← merge less patience older.items newest.items
      settle less depth patience { older with items := items } rest
    else pure ({ newest with depth := depth } :: older :: rest, patience)

/-- Merges the runs that are left, the newest first. -/
def finish (less : α → α → Except ε Bool) :
    (fuel patience : Nat) → List (Pending α) → Except ε (List α)
  | fuel + 1, patience, newest :: older :: oldest :: rest => do
    if oldest.items.length < newest.items.length then
      let (items, patience) ← merge less patience oldest.items older.items
      finish less fuel patience (newest :: { oldest with items := items } :: rest)
    else
      let (items, patience) ← merge less patience older.items newest.items
      finish less fuel patience ({ older with items := items } :: oldest :: rest)
  | _, patience, [newest, older] => do
    let (items, _) ← merge less patience older.items newest.items
    pure items
  | _, _, runs => .ok (runs.reverse.flatMap (·.items))

/-- Takes runs from the front of `items`; `runs` are those before it, the newest first. -/
def gather (less : α → α → Except ε Bool) (size minimum : Nat) :
    (fuel start patience : Nat) → List (Pending α) → List α → Except ε (List α)
  | fuel + 1, start, patience, runs, item :: items => do
    let (run, rest) ← takeRun less minimum (item :: items)
    let (runs, patience) ← match runs with
      | newest :: older => settle less (newest.border size run.length) patience newest older
      | [] => pure ([], patience)
    gather less size minimum fuel (start + run.length) patience (⟨start, run, 0⟩ :: runs) rest
  | _, _, patience, runs, _ => finish less runs.length patience runs

/-- The items in rising order; equal items stay in their order. -/
def sort (less : α → α → Except ε Bool) (items : List α) : Except ε (List α) :=
  let size := items.length
  gather less size (minimumRun size size false) size 0 longStride [] items

end LedgerWire.Sorting
