/-!
# Searching sorted items

Where an item belongs among sorted ones. Comparing two items may fail, and then the search fails, so
it matters which places are looked at: `bisect` halves the places that are left, and `fromFront` and
`fromBack` first take growing strides from one end.
-/

namespace LedgerWire.Sorting

variable {ε α : Type}

/-- Asks a question about the item at a place; beyond the last item the answer is no. -/
def askAt (question : α → Except ε Bool) (items : List α) (place : Nat) : Except ε Bool :=
  match items[place]? with
  | some item => question item
  | none => .ok false

/-- Halves the places `lo..hi` until one is left. -/
def halve (before : Nat → Except ε Bool) : (fuel lo hi : Nat) → Except ε Nat
  | 0, _, hi => .ok hi
  | fuel + 1, lo, hi =>
    if lo < hi then do
      let mid := lo + (hi - lo) / 2
      if ← before mid then halve before fuel (mid + 1) hi else halve before fuel lo mid
    else .ok hi

/-- The place in `lo..hi` that all places before it are `before`, and none after it. -/
def bisect (before : Nat → Except ε Bool) (lo hi : Nat) : Except ε Nat :=
  halve before (hi - lo) lo hi

/-- Strides ahead while the answer is yes, twice as far each time and not beyond `limit`. Gives the
last place with the answer yes, and the place that the search must not pass. -/
def stride (holds : Nat → Except ε Bool) (limit : Nat) : (fuel last next : Nat) → Except ε (Nat × Nat)
  | 0, last, next => .ok (last, min next limit)
  | fuel + 1, last, next =>
    if next < limit then do
      if ← holds next then stride holds limit fuel next (2 * next + 1) else pure (last, next)
    else .ok (last, limit)

/-- The number of places of `0..size` that are `before`, where it is likely to be small. -/
def fromFront (before : Nat → Except ε Bool) (size : Nat) : Except ε Nat := do
  if ← before 0 then
    let (last, next) ← stride before size size 0 1
    bisect before (last + 1) next
  else pure 0

/-- The number of places of `0..size` that are `before`, where it is likely to be large. -/
def fromBack (before : Nat → Except ε Bool) (size : Nat) : Except ε Nat := do
  if ← before (size - 1) then pure size
  else
    let (last, next) ← stride (fun back => not <$> before (size - 1 - back)) size size 0 1
    bisect before (size - next) (size - 1 - last)

end LedgerWire.Sorting
