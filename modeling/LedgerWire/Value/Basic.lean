import LedgerWire.Number.Shortest
import LedgerWire.Text.Quoted

/-!
# Values

What a schema describes and a message shows: nothing, truth values, integers of any size,
floating-point numbers, texts, byte strings, lists and mappings. A mapping keeps its entries in order.
-/

namespace LedgerWire

inductive Value
  | none
  | bool (b : Bool)
  | int (n : Int)
  | float (x : Binary64)
  | text (t : Text)
  | bytes (bs : Bytes)
  | list (items : List Value)
  | map (entries : List (Value × Value))
  deriving Inhabited, Repr

/-- What sort of value a value is. -/
inductive Kind
  | none | bool | int | float | text | bytes | list | map
  deriving DecidableEq, Repr

/-- The word for a sort of value in messages. -/
def Kind.name : Kind → Text
  | .none => "NoneType"
  | .bool => "bool"
  | .int => "int"
  | .float => "float"
  | .text => "str"
  | .bytes => "bytes"
  | .list => "list"
  | .map => "dict"

namespace Value

def kind : Value → Kind
  | .none => .none
  | .bool _ => .bool
  | .int _ => .int
  | .float _ => .float
  | .text _ => .text
  | .bytes _ => .bytes
  | .list _ => .list
  | .map _ => .map

/-- An integer or a truth value, as an integer. -/
def toInt? : Value → Option Int
  | .bool b => some (if b then 1 else 0)
  | .int n => some n
  | _ => Option.none

mutual

/-- The value as a message shows it, texts and byte strings between quotes. -/
def quoted : Value → Text
  | .none => "None"
  | .bool b => if b then "True" else "False"
  | .int n => Text.ofInt n
  | .float x => x.toText
  | .text t => t.quoted
  | .bytes bs => bs.quoted
  | .list items => Text.join ["[", Text.separated ", " (quotedItems items), "]"]
  | .map entries =>
    Text.join ["\x7b", Text.separated ", " (quotedEntries entries), "\x7d"]

def quotedItems : List Value → List Text
  | [] => []
  | item :: items => quoted item :: quotedItems items

def quotedEntries : List (Value × Value) → List Text
  | [] => []
  | (key, value) :: entries =>
    Text.join [quoted key, ": ", quoted value] :: quotedEntries entries

end

/-- The value as a message shows it where a text stands for itself. -/
def display : Value → Text
  | .text t => t
  | value => value.quoted

end Value

end LedgerWire
