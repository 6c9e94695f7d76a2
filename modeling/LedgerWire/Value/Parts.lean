import LedgerWire.Value.Order

/-!
# Parts of values

The value at a name, the parts that a value consists of, and the mapping that a value gives.
-/

namespace LedgerWire

/-- Why a value has nothing at a name. -/
inductive FieldFault
  | missing (name : Text)
  | noNames (kind : Kind)
  deriving DecidableEq, Repr

def FieldFault.message : FieldFault → Text
  | .missing name => name
  | .noNames .list => "list indices must be integers or slices, not str"
  | .noNames .text => "string indices must be integers, not 'str'"
  | .noNames .bytes => "byte indices must be integers or slices, not str"
  | .noNames kind => Text.join ["'", kind.name, "' object is not subscriptable"]

/-- Why a value gives no mapping. -/
inductive MappingFault
  | noParts (kind : Kind)
  | noPair (index : Nat)
  | pairLength (index length : Nat)
  | key (kind : Kind)
  deriving DecidableEq, Repr

def MappingFault.message : MappingFault → Text
  | .noParts kind => Text.join ["'", kind.name, "' object is not iterable"]
  | .noPair index =>
    Text.join ["cannot convert dictionary update sequence element #", Text.ofNat index,
      " to a sequence"]
  | .pairLength index length =>
    Text.join ["dictionary update sequence element #", Text.ofNat index, " has length ",
      Text.ofNat length, "; 2 is required"]
  | .key kind => Text.join ["unhashable type: '", kind.name, "'"]

namespace Value

/-- The value at a name. -/
def field (name : Text) : Value → Except FieldFault Value
  | .map entries => (Entries.field? name entries).elim (.error (.missing name)) .ok
  | v => .error (.noNames v.kind)

/-- What a value consists of: items, keys, code points or bytes. -/
def parts? : Value → Option (List Value)
  | .list items => some items
  | .map entries => some (entries.map (·.1))
  | .text t => some (t.map fun c => .text [c])
  | .bytes bs => some (bs.map fun b => .int b.toNat)
  | _ => Option.none

/-- Whether a value can be a key. -/
def isKey : Value → Bool
  | .list _ => false
  | .map _ => false
  | _ => true

/-- Pairs of keys and values, of which the first has the place `index`. -/
def pairsFrom (index : Nat) : List Value → Except MappingFault (List (Value × Value))
  | [] => .ok []
  | item :: items => do
    let some pair := item.parts? | .error (.noPair index)
    let [key, value] := pair | .error (.pairLength index pair.length)
    if !key.isKey then .error (.key key.kind)
    let pairs ← pairsFrom (index + 1) items
    pure ((key, value) :: pairs)

/-- The mapping that a value is, or that its parts are the pairs of. -/
def toMapping : Value → Except MappingFault Entries
  | .map entries => .ok entries
  | v =>
    match v.parts? with
    | some items => (pairsFrom 0 items).map Entries.ofPairs
    | Option.none => .error (.noParts v.kind)

end Value

end LedgerWire
