import LedgerWire.Value.Basic

/-!
# Equal and ordered values

Numbers are equal and ordered by what they stand for: a truth value is one or zero, and an integer
compares with a floating-point number exactly. Texts, byte strings and lists are ordered as words in
a dictionary. No other two values can be put in order.
-/

namespace LedgerWire

namespace Value

/-- How two numbers lie to each other: nothing for a value that is no number or lies nowhere. -/
def compareNumbers (a b : Value) : Option (Option Ordering) :=
  match a, b with
  | .float x, .float y => some (x.compareWith y)
  | .float x, b => b.toInt?.map x.compareInt
  | a, .float y => a.toInt?.map fun n => (y.compareInt n).map Ordering.swap
  | a, b => a.toInt?.bind fun m => b.toInt?.map fun n => some (compare m n)

/-- Whether two values that are no lists or mappings are equal. -/
def sameScalar (a b : Value) : Bool :=
  match a, b with
  | .none, .none => true
  | .text s, .text t => s == t
  | .bytes s, .bytes t => s == t
  | a, b => compareNumbers a b == some (some .eq)

mutual

/-- Whether two values are equal; the order of entries does not count. -/
def same : Value → Value → Bool
  | .list xs, .list ys => sameItems xs ys
  | .map xs, .map ys => xs.length == ys.length && entriesIn xs ys
  | .list _, _ => false
  | .map _, _ => false
  | a, b => sameScalar a b

def sameItems : List Value → List Value → Bool
  | [], [] => true
  | x :: xs, y :: ys => same x y && sameItems xs ys
  | _, _ => false

/-- Whether each of the entries is one of `all`. -/
def entriesIn : List (Value × Value) → List (Value × Value) → Bool
  | [], _ => true
  | (key, value) :: entries, all =>
    (all.any fun entry => sameScalar key entry.1 && same value entry.2) && entriesIn entries all

end

@[simp] theorem sameScalar_int (m n : Int) : sameScalar (.int m) (.int n) = decide (m = n) := by
  show (some (some (compare m n)) == some (some .eq)) = _
  rw [Bool.eq_iff_iff, beq_iff_eq, decide_eq_true_iff, Option.some.injEq, Option.some.injEq,
    Std.LawfulEqCmp.compare_eq_iff_eq]

@[simp] theorem same_int (m n : Int) : same (.int m) (.int n) = decide (m = n) := sameScalar_int m n

/-- The questions that are asked about an order. -/
inductive Comparison
  | less
  | lessOrEqual
  | greater
  deriving DecidableEq, Repr

def Comparison.symbol : Comparison → Text
  | .less => "<"
  | .lessOrEqual => "<="
  | .greater => ">"

/-- Whether the answer is yes for two values that lie to each other as given. -/
def Comparison.holds : Comparison → Ordering → Bool
  | .less, o => o == .lt
  | .lessOrEqual, o => o != .gt
  | .greater, o => o == .gt

/-- Two values that cannot be put in order. -/
structure Incomparable where
  comparison : Comparison
  left : Kind
  right : Kind
  deriving DecidableEq, Repr

def Incomparable.message (fault : Incomparable) : Text :=
  Text.join ["'", fault.comparison.symbol, "' not supported between instances of '",
    fault.left.name, "' and '", fault.right.name, "'"]

/-- The order of words over an alphabet of numbers. -/
def compareWords : List Nat → List Nat → Ordering
  | [], [] => .eq
  | [], _ :: _ => .lt
  | _ :: _, [] => .gt
  | m :: ms, n :: ns => (compare m n).then (compareWords ms ns)

mutual

/-- Answers a question about the order of two values; a value that lies nowhere gives no. -/
def ask (question : Comparison) : Value → Value → Except Incomparable Bool
  | .list xs, .list ys => askItems question xs ys
  | .list _, b => .error ⟨question, .list, b.kind⟩
  | .map _, b => .error ⟨question, .map, b.kind⟩
  | .text s, .text t => .ok (question.holds (compareWords (s.map (·.val)) (t.map (·.val))))
  | .bytes s, .bytes t => .ok (question.holds (compareWords (s.map (·.toNat)) (t.map (·.toNat))))
  | a, b =>
    match compareNumbers a b with
    | some (some order) => .ok (question.holds order)
    | some Option.none => .ok false
    | Option.none => .error ⟨question, a.kind, b.kind⟩

/-- The first two items that differ decide, and else the lengths. -/
def askItems (question : Comparison) : List Value → List Value → Except Incomparable Bool
  | [], [] => .ok (question.holds .eq)
  | [], _ :: _ => .ok (question.holds .lt)
  | _ :: _, [] => .ok (question.holds .gt)
  | x :: xs, y :: ys => if same x y then askItems question xs ys else ask question x y

end

end Value

/-- The entries of a mapping, one for each key. -/
abbrev Entries := List (Value × Value)

namespace Entries

/-- The value at a key. -/
def find? (key : Value) : Entries → Option Value
  | [] => none
  | (k, v) :: entries => if k.sameScalar key then some v else find? key entries

/-- The value at a text. -/
def field? (name : Text) : Entries → Option Value
  | [] => none
  | (.text t, v) :: entries => if t = name then some v else field? name entries
  | _ :: entries => field? name entries

/-- Gives the key a value. A key that is there already keeps its place. -/
def insert (key value : Value) : Entries → Entries
  | [] => [(key, value)]
  | (k, v) :: entries =>
    if k.sameScalar key then (k, value) :: entries else (k, v) :: insert key value entries

/-- The mapping that pairs make one after the other. -/
def ofPairs (pairs : List (Value × Value)) : Entries :=
  pairs.foldl (fun entries pair => entries.insert pair.1 pair.2) []

end Entries

end LedgerWire
