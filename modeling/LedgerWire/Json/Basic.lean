import LedgerWire.Value.Basic

/-!
# JSON documents

Documents with whole numbers and floating-point numbers told apart. The members of an object are in
order, one for each name. Every document is a value, and a value without byte strings whose mappings
have texts as keys is a document.
-/

namespace LedgerWire

inductive Json
  | null
  | bool (b : Bool)
  | int (n : Int)
  | float (x : Binary64)
  | text (t : Text)
  | list (items : List Json)
  | object (members : List (Text × Json))
  deriving Inhabited, Repr

namespace Json

/-- Gives a name a document. A name that is there already keeps its place. -/
def insertMember (name : Text) (value : Json) : List (Text × Json) → List (Text × Json)
  | [] => [(name, value)]
  | (n, v) :: members =>
    if n = name then (n, value) :: members else (n, v) :: insertMember name value members

/-- The document at a name. -/
def member? (name : Text) : List (Text × Json) → Option Json
  | [] => none
  | (n, v) :: members => if n = name then some v else member? name members

mutual

def toValue : Json → Value
  | .null => .none
  | .bool b => .bool b
  | .int n => .int n
  | .float x => .float x
  | .text t => .text t
  | .list items => .list (toValues items)
  | .object members => .map (toEntries members)

def toValues : List Json → List Value
  | [] => []
  | item :: items => toValue item :: toValues items

def toEntries : List (Text × Json) → List (Value × Value)
  | [] => []
  | (name, value) :: members => (.text name, toValue value) :: toEntries members

end

end Json

namespace Value

mutual

/-- The document of a value, if it has one. -/
def toJson? : Value → Option Json
  | .none => some .null
  | .bool b => some (.bool b)
  | .int n => some (.int n)
  | .float x => some (.float x)
  | .text t => some (.text t)
  | .bytes _ => Option.none
  | .list items => (toJsonItems? items).map .list
  | .map entries => (toJsonMembers? entries).map .object

def toJsonItems? : List Value → Option (List Json)
  | [] => some []
  | item :: items => do
    let j ← toJson? item
    let js ← toJsonItems? items
    pure (j :: js)

def toJsonMembers? : List (Value × Value) → Option (List (Text × Json))
  | [] => some []
  | (key, value) :: entries => do
    let .text name := key | failure
    let j ← toJson? value
    let js ← toJsonMembers? entries
    pure ((name, j) :: js)

end

end Value

end LedgerWire
