import LedgerWire.Json.Basic

/-!
# Writing JSON

Documents are written in ASCII: everything else is escaped by 16-bit units. `Json.render` puts each
member and item on a line of its own, indented by two blanks for each level; `Json.compact` uses no
blanks at all.
-/

namespace LedgerWire

namespace Json

/-- One 16-bit unit as an escape. -/
def unitEscape (n : Nat) : Text := Text.ofString "\\u" ++ Text.hexDigits 4 n

/-- One code point inside a string. -/
def stringPart (c : CodePoint) : Text :=
  let n := c.val
  if n = 0x22 then "\\\""
  else if n = 0x5C then "\\\\"
  else if n = 0x0A then "\\n"
  else if n = 0x0D then "\\r"
  else if n = 0x09 then "\\t"
  else if n = 0x0C then "\\f"
  else if n = 0x08 then "\\b"
  else if 0x20 ≤ n ∧ n ≤ 0x7E then [c]
  else if n < 0x10000 then unitEscape n
  else unitEscape (0xD800 + (n - 0x10000) / 0x400) ++ unitEscape (0xDC00 + (n - 0x10000) % 0x400)

def renderString (t : Text) : Text :=
  CodePoint.ofChar '"' :: t.flatMap stringPart ++ [CodePoint.ofChar '"']

def renderFloat : Binary64 → Text
  | .nan => "NaN"
  | .infinite negative => if negative then "-Infinity" else "Infinity"
  | x => x.toText

/-- The break before an item at the given level of nesting. -/
def lineBreak (level : Nat) : Text :=
  CodePoint.ofChar '\n' :: List.replicate (2 * level) (CodePoint.ofChar ' ')

mutual

/-- The lines of a document that stands at a level of nesting. -/
def renderAt (level : Nat) : Json → Text
  | .null => "null"
  | .bool b => if b then "true" else "false"
  | .int n => Text.ofInt n
  | .float x => renderFloat x
  | .text t => renderString t
  | .list [] => "[]"
  | .list items =>
    Text.join ["[", Text.separated "," (renderItems (level + 1) items), lineBreak level, "]"]
  | .object [] => "\x7b\x7d"
  | .object members =>
    Text.join ["\x7b", Text.separated "," (renderMembers (level + 1) members), lineBreak level,
      "\x7d"]

def renderItems (level : Nat) : List Json → List Text
  | [] => []
  | item :: items => (lineBreak level ++ renderAt level item) :: renderItems level items

def renderMembers (level : Nat) : List (Text × Json) → List Text
  | [] => []
  | (name, value) :: members =>
    Text.join [lineBreak level, renderString name, ": ", renderAt level value] ::
      renderMembers level members

end

/-- The text of a document, over several lines. -/
def render (j : Json) : Text := renderAt 0 j

mutual

/-- The text of a document, on one line. -/
def compact : Json → Text
  | .null => "null"
  | .bool b => if b then "true" else "false"
  | .int n => Text.ofInt n
  | .float x => renderFloat x
  | .text t => renderString t
  | .list items => Text.join ["[", Text.separated "," (compactItems items), "]"]
  | .object members => Text.join ["\x7b", Text.separated "," (compactMembers members), "\x7d"]

def compactItems : List Json → List Text
  | [] => []
  | item :: items => compact item :: compactItems items

def compactMembers : List (Text × Json) → List Text
  | [] => []
  | (name, value) :: members =>
    Text.join [renderString name, ":", compact value] :: compactMembers members

end

end Json

end LedgerWire
