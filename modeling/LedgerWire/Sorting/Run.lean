import LedgerWire.Sorting.Search

/-!
# Runs

A list falls into runs: stretches that already rise, or that fall at every step and are turned round.
A run that is short takes in the items behind it, each at the place that `bisect` finds.
-/

namespace LedgerWire.Sorting

variable {ε α : Type}

/-- Splits off the items that go on falling, or go on not to fall, from the item before them. -/
def splitRun (less : α → α → Except ε Bool) (falling : Bool) (last : α) :
    List α → Except ε (List α × List α)
  | [] => .ok ([], [])
  | item :: items => do
    if (← less item last) = falling then
      let (run, rest) ← splitRun less falling item items
      pure (item :: run, rest)
    else pure ([], item :: items)

/-- The run at the beginning, in rising order, and what stands after it. -/
def nextRun (less : α → α → Except ε Bool) : List α → Except ε (List α × List α)
  | first :: second :: items => do
    let falling ← less second first
    let (more, rest) ← splitRun less falling second items
    let run := first :: second :: more
    pure (if falling then run.reverse else run, rest)
  | items => .ok (items, [])

/-- Puts an item into a run, behind the items that are not greater. -/
def insertItem (less : α → α → Except ε Bool) (run : List α) (item : α) : Except ε (List α) := do
  let place ← bisect (askAt (fun other => not <$> less item other) run) 0 run.length
  pure (run.take place ++ item :: run.drop place)

/-- The run at the beginning, of at least `minimum` items if there are as many. -/
def takeRun (less : α → α → Except ε Bool) (minimum : Nat) (items : List α) :
    Except ε (List α × List α) := do
  let (run, rest) ← nextRun less items
  let missing := minimum - run.length
  let run ← (rest.take missing).foldlM (insertItem less) run
  pure (run, rest.drop missing)

end LedgerWire.Sorting
