import LedgerWire.Sorting.Search

/-!
# Merging two runs

Two neighbouring runs become one. Items that are in place already stay out of it. The shorter run is
then merged into the longer one, from the front or from the back: item by item, and in strides as
soon as one run has given enough items in a row. How many are enough is the `patience` of the merge,
which it hands on.
-/

namespace LedgerWire.Sorting

variable {ε α : Type}

/-- The patience at the outset, and the number of items that a stride has to win. -/
def longStride : Nat := 7

/-- How a merge goes on: item by item, with the items that each run has just given in a row, or in
strides. -/
inductive Pace
  | item (fromLeft fromRight : Nat)
  | stride

/-- Striding makes the next strides come sooner. -/
def eager (patience : Nat) : Nat := if 1 < patience then patience - 1 else patience

/-- After two strides, the pace and the patience to go on with. -/
def nextPace (patience first second : Nat) : Nat × Pace :=
  if longStride ≤ first || longStride ≤ second then (patience, .stride)
  else (patience + 1, .item 0 0)

/-- Merges from the front. Of equal items those on the left come first. The last item on the left is
known to be the greatest. -/
def mergeUp (less : α → α → Except ε Bool) :
    (fuel patience : Nat) → Pace → (left right : List α) → Except ε (List α × Nat)
  | fuel + 1, patience, .item fromLeft fromRight, x :: left, y :: right => do
    if ← less y x then
      if right.isEmpty then return (y :: x :: left, patience)
      let (patience, pace) :=
        if patience ≤ fromRight + 1 then (patience + 1, Pace.stride)
        else (patience, Pace.item 0 (fromRight + 1))
      let (rest, patience) ← mergeUp less fuel patience pace (x :: left) right
      pure (y :: rest, patience)
    else
      if left.length = 1 then return (x :: y :: right ++ left, patience)
      let (patience, pace) :=
        if patience ≤ fromLeft + 1 then (patience + 1, Pace.stride)
        else (patience, Pace.item (fromLeft + 1) 0)
      let (rest, patience) ← mergeUp less fuel patience pace left (y :: right)
      pure (x :: rest, patience)
  | fuel + 1, patience, .stride, left, y :: right => do
    let patience := eager patience
    let first ← fromFront (askAt (fun x => not <$> less y x) left) left.length
    let front := left.take first ++ [y]
    match left.drop first with
    | [] => pure (front ++ right, patience)
    | [x] => pure (left.take first ++ y :: right ++ [x], patience)
    | x :: left =>
      if right.isEmpty then return (front ++ x :: left, patience)
      let second ← fromFront (askAt (fun z => less z x) right) right.length
      let front := front ++ right.take second
      let right := right.drop second
      if right.isEmpty then return (front ++ x :: left, patience)
      if left.length = 1 then return (front ++ x :: right ++ left, patience)
      let (patience, pace) := nextPace patience first second
      let (rest, patience) ← mergeUp less fuel patience pace left right
      pure (front ++ x :: rest, patience)
  | _, patience, _, left, right => .ok (left ++ right, patience)

/-- Merges from the back: both runs and the outcome are given from their greatest items down. The
last item on the right is known to be the least. -/
def mergeDown (less : α → α → Except ε Bool) :
    (fuel patience : Nat) → Pace → (left right : List α) → Except ε (List α × Nat)
  | fuel + 1, patience, .item fromLeft fromRight, x :: left, y :: right => do
    if ← less y x then
      if left.isEmpty then return (x :: y :: right, patience)
      let (patience, pace) :=
        if patience ≤ fromLeft + 1 then (patience + 1, Pace.stride)
        else (patience, Pace.item (fromLeft + 1) 0)
      let (rest, patience) ← mergeDown less fuel patience pace left (y :: right)
      pure (x :: rest, patience)
    else
      if right.length = 1 then return (y :: x :: left ++ right, patience)
      let (patience, pace) :=
        if patience ≤ fromRight + 1 then (patience + 1, Pace.stride)
        else (patience, Pace.item 0 (fromRight + 1))
      let (rest, patience) ← mergeDown less fuel patience pace (x :: left) right
      pure (y :: rest, patience)
  | fuel + 1, patience, .stride, left, y :: right => do
    let patience := eager patience
    let stay ← fromBack (askAt (fun x => not <$> less y x) left.reverse) left.length
    let first := left.length - stay
    let front := left.take first ++ [y]
    match left.drop first with
    | [] => pure (front ++ right, patience)
    | x :: left =>
      if right.length = 1 then return (front ++ x :: left ++ right, patience)
      let stay ← fromBack (askAt (fun z => less z x) right.reverse) right.length
      let second := right.length - stay
      let front := front ++ right.take second
      let right := right.drop second
      if right.length ≤ 1 then return (front ++ x :: left ++ right, patience)
      if left.isEmpty then return (front ++ x :: right, patience)
      let (patience, pace) := nextPace patience first second
      let (rest, patience) ← mergeDown less fuel patience pace left right
      pure (front ++ x :: rest, patience)
  | _, patience, _, left, right => .ok (left ++ right, patience)

/-- Merges from the front runs of which the first item on the right is the least of all. -/
def mergeFront (less : α → α → Except ε Bool) (patience : Nat) (left : List α) :
    List α → Except ε (List α × Nat)
  | y :: right => do
    if right.isEmpty then return (y :: left, patience)
    if left.length = 1 then return (y :: right ++ left, patience)
    let fuel := left.length + right.length
    let (rest, patience) ← mergeUp less fuel patience (.item 0 0) left right
    pure (y :: rest, patience)
  | [] => .ok (left, patience)

/-- Merges from the back runs of which the last item on the left is the greatest of all. -/
def mergeBack (less : α → α → Except ε Bool) (patience : Nat) (left right : List α) :
    Except ε (List α × Nat) := do
  match left.reverse, right.reverse with
  | x :: left, right =>
    if left.isEmpty then return ((x :: right).reverse, patience)
    if right.length = 1 then return ((x :: left ++ right).reverse, patience)
    let fuel := left.length + right.length
    let (rest, patience) ← mergeDown less fuel patience (.item 0 0) left right
    pure ((x :: rest).reverse, patience)
  | [], _ => pure (right, patience)

/-- Merges two neighbouring runs. -/
def merge (less : α → α → Except ε Bool) (patience : Nat) (left right : List α) :
    Except ε (List α × Nat) := do
  match right.head?, left.getLast? with
  | some least, some greatest =>
    let settled ← fromFront (askAt (fun x => not <$> less least x) left) left.length
    let leftOver := left.drop settled
    if leftOver.isEmpty then return (left ++ right, patience)
    let loose ← fromBack (askAt (fun y => less y greatest) right) right.length
    if loose = 0 then return (left ++ right, patience)
    let rightOver := right.take loose
    let (merged, patience) ←
      if leftOver.length ≤ rightOver.length then mergeFront less patience leftOver rightOver
      else mergeBack less patience leftOver rightOver
    pure (left.take settled ++ merged ++ right.drop loose, patience)
  | _, _ => pure (left ++ right, patience)

end LedgerWire.Sorting
