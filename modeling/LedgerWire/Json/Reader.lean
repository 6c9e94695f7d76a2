import LedgerWire.Json.Basic

/-!
# Reading JSON

`Json.parse` reads one document that spans a text. The three constants for floating-point values that
are no numbers are read, two escapes that form a surrogate pair are one code point, and of several
members of one name the last counts. What does not fit is reported with its place.
-/

namespace LedgerWire

namespace Json

/-- What is wrong at a place of a text. -/
inductive Reason
  | value
  | propertyName
  | colon
  | comma
  | extraData
  | unterminatedString
  | controlCharacter
  | invalidEscape
  | invalidUnicodeEscape
  | byteOrderMark
  deriving DecidableEq, Repr

def Reason.message : Reason → Text
  | .value => "Expecting value"
  | .propertyName => "Expecting property name enclosed in double quotes"
  | .colon => "Expecting ':' delimiter"
  | .comma => "Expecting ',' delimiter"
  | .extraData => "Extra data"
  | .unterminatedString => "Unterminated string starting at"
  | .controlCharacter => "Invalid control character at"
  | .invalidEscape => "Invalid \\escape"
  | .invalidUnicodeEscape => "Invalid \\uXXXX escape"
  | .byteOrderMark => "Unexpected UTF-8 BOM (decode using utf-8-sig)"

structure Fault where
  reason : Reason
  position : Nat
  deriving DecidableEq, Repr

/-- A fault with its place also given as line and column, both counted from one. -/
structure SyntaxFault where
  reason : Reason
  line : Nat
  column : Nat
  position : Nat
  deriving DecidableEq, Repr

def SyntaxFault.message (fault : SyntaxFault) : Text :=
  Text.join [fault.reason.message, ": line ", Text.ofNat fault.line, " column ",
    Text.ofNat fault.column, " (char ", Text.ofNat fault.position, ")"]

def newline : CodePoint := CodePoint.ofChar '\n'

/-- Finds line and column of a fault in the text that it was found in. -/
def Fault.inText (fault : Fault) (t : Text) : SyntaxFault :=
  let before := t.take fault.position
  { reason := fault.reason
    line := before.count newline + 1
    column := (before.reverse.takeWhile (· ≠ newline)).length + 1
    position := fault.position }

/-- A text that is being read: what is left of it, and the place where that begins. -/
structure Cursor where
  position : Nat
  rest : Text

def Cursor.fail {α : Type} (cursor : Cursor) (reason : Reason) : Except Fault α :=
  .error ⟨reason, cursor.position⟩

def Cursor.advance (cursor : Cursor) (count : Nat) : Cursor :=
  ⟨cursor.position + count, cursor.rest.drop count⟩

def isSpace (c : CodePoint) : Bool :=
  c.val == 0x20 || c.val == 0x09 || c.val == 0x0A || c.val == 0x0D

/-- Goes past white space. -/
def Cursor.skipSpace (cursor : Cursor) : Cursor :=
  cursor.advance (cursor.rest.takeWhile isSpace).length

/-- Whether `c` stands here. -/
def Cursor.isAt (cursor : Cursor) (c : Char) : Bool :=
  cursor.rest.head? == some (CodePoint.ofChar c)

/-- The number that four hexadecimal digits spell. -/
def hexUnit? (a b c d : CodePoint) : Option Nat := do
  let a ← Text.hexValue? a
  let b ← Text.hexValue? b
  let c ← Text.hexValue? c
  let d ← Text.hexValue? d
  pure (((a * 16 + b) * 16 + c) * 16 + d)

/-- What a backslash and one more code point stand for. -/
def escape? (c : CodePoint) : Option CodePoint :=
  match c.val with
  | 0x22 => some c
  | 0x5C => some c
  | 0x2F => some c
  | 0x62 => some (CodePoint.ofNat 0x08)
  | 0x66 => some (CodePoint.ofNat 0x0C)
  | 0x6E => some (CodePoint.ofNat 0x0A)
  | 0x72 => some (CodePoint.ofNat 0x0D)
  | 0x74 => some (CodePoint.ofNat 0x09)
  | _ => none

/-- The code point of a surrogate pair. -/
def joinSurrogates (high low : Nat) : Nat := 0x10000 + (high - 0xD800) * 0x400 + (low - 0xDC00)

/-- Reads what follows an opening quote at `start`, up to and including the closing one. -/
def stringBody (start position : Nat) : Text → Except Fault (Text × Cursor)
  | [] => .error ⟨.unterminatedString, start⟩
  | c :: rest =>
    let found (c : CodePoint) (tail : Except Fault (Text × Cursor)) : Except Fault (Text × Cursor) :=
      tail.map fun (t, cursor) => (c :: t, cursor)
    if c.val = 0x22 then .ok ([], ⟨position + 1, rest⟩)
    else if c.val < 0x20 then .error ⟨.controlCharacter, position⟩
    else if c.val ≠ 0x5C then found c (stringBody start (position + 1) rest)
    else match rest with
      | [] => .error ⟨.unterminatedString, start⟩
      | e :: rest =>
        if e.val ≠ 0x75 then
          match escape? e with
          | some c => found c (stringBody start (position + 2) rest)
          | none => .error ⟨.invalidEscape, position⟩
        else match rest with
          | a₁ :: a₂ :: a₃ :: a₄ :: rest =>
            if rest.isEmpty then .error ⟨.invalidUnicodeEscape, position + 1⟩
            else match hexUnit? a₁ a₂ a₃ a₄ with
              | none => .error ⟨.invalidUnicodeEscape, position + 1⟩
              | some unit =>
                let alone (_ : Unit) :=
                  found (CodePoint.ofNat unit) (stringBody start (position + 6) rest)
                if !(CodePoint.ofNat unit).isHighSurrogate then alone ()
                else match rest with
                  | s :: u :: b₁ :: b₂ :: b₃ :: b₄ :: after =>
                    if after.isEmpty || s.val ≠ 0x5C || u.val ≠ 0x75 then alone ()
                    else match hexUnit? b₁ b₂ b₃ b₄ with
                      | none => .error ⟨.invalidUnicodeEscape, position + 7⟩
                      | some low =>
                        if (CodePoint.ofNat low).isLowSurrogate then
                          found (CodePoint.ofNat (joinSurrogates unit low))
                            (stringBody start (position + 12) after)
                        else alone ()
                  | _ => alone ()
          | _ => .error ⟨.invalidUnicodeEscape, position + 1⟩

/-- Reads a string whose opening quote stands here. -/
def stringAt (cursor : Cursor) : Except Fault (Text × Cursor) :=
  stringBody cursor.position (cursor.position + 1) (cursor.rest.drop 1)

def isDigit (c : CodePoint) : Bool := 48 ≤ c.val && c.val ≤ 57

/-- The number that decimal digits spell. -/
def ofDigits (ds : Text) : Nat := ds.foldl (fun n d => 10 * n + (d.val - 48)) 0

/-- The digits of a whole number: a zero, or digits of which the first is none. -/
def wholeDigits (t : Text) : Text :=
  if t.head? = some (CodePoint.ofChar '0') then t.take 1 else t.takeWhile isDigit

/-- The digits after a point that stands at the beginning. -/
def fractionDigits : Text → Text
  | c :: t => if c.val = 0x2E then t.takeWhile isDigit else []
  | [] => []

/-- The exponent that stands at the beginning, if any, and the length of its text. -/
def exponentAt : Text → Option (Int × Nat)
  | c :: t =>
    if c.val ≠ 0x65 ∧ c.val ≠ 0x45 then none
    else
      let signed : Bool := match t with
        | s :: _ => s.val == 0x2B || s.val == 0x2D
        | [] => false
      let negative := signed && t.head? == some (CodePoint.ofChar '-')
      let digits := (if signed then t.drop 1 else t).takeWhile isDigit
      if digits.isEmpty then none
      else
        let n : Int := ofDigits digits
        some (if negative then -n else n, 1 + (if signed then 1 else 0) + digits.length)
  | [] => none

/-- Reads a number. With a fraction or an exponent it is a floating-point number. -/
def numberAt (cursor : Cursor) : Except Fault (Json × Cursor) :=
  let negative := cursor.isAt '-'
  let start := if negative then cursor.advance 1 else cursor
  let whole := wholeDigits start.rest
  if whole.isEmpty then cursor.fail .value
  else
    let afterWhole := start.advance whole.length
    let fraction := fractionDigits afterWhole.rest
    let afterFraction :=
      if fraction.isEmpty then afterWhole else afterWhole.advance (fraction.length + 1)
    let exponent := exponentAt afterFraction.rest
    if fraction.isEmpty && exponent.isNone then
      let n : Int := ofDigits whole
      .ok (.int (if negative then -n else n), afterFraction)
    else
      let (power, length) := exponent.getD (0, 0)
      .ok (.float (Binary64.ofDecimal negative (ofDigits (whole ++ fraction))
        (power - fraction.length)), afterFraction.advance length)

/-- Reads one of the words that stand for a document, if one stands here. -/
def wordAt? (cursor : Cursor) : Option (Json × Cursor) :=
  let word (name : String) (value : Json) : Option (Json × Cursor) :=
    let name := Text.ofString name
    if name.isPrefixOf cursor.rest then some (value, cursor.advance name.length) else none
  word "null" .null <|> word "true" (.bool true) <|> word "false" (.bool false) <|>
    word "NaN" (.float .nan) <|> word "Infinity" (.float (.infinite false)) <|>
    word "-Infinity" (.float (.infinite true))

mutual

/-- Reads the document that begins here. -/
def valueAt : (fuel : Nat) → Cursor → Except Fault (Json × Cursor)
  | 0, cursor => cursor.fail .value
  | fuel + 1, cursor =>
    if cursor.isAt '"' then do
      let (t, cursor) ← stringAt cursor
      pure (.text t, cursor)
    else if cursor.isAt '\x7b' then
      let inside := (cursor.advance 1).skipSpace
      if inside.isAt '\x7d' then .ok (.object [], inside.advance 1)
      else do
        let (members, cursor) ← membersAt fuel [] inside
        pure (.object members, cursor)
    else if cursor.isAt '[' then
      let inside := (cursor.advance 1).skipSpace
      if inside.isAt ']' then .ok (.list [], inside.advance 1)
      else do
        let (items, cursor) ← itemsAt fuel inside
        pure (.list items, cursor)
    else match wordAt? cursor with
      | some found => .ok found
      | none => numberAt cursor

/-- Reads the members from here to the end of the object, after those read `sofar`. -/
def membersAt : (fuel : Nat) → (sofar : List (Text × Json)) → Cursor →
    Except Fault (List (Text × Json) × Cursor)
  | 0, _, cursor => cursor.fail .value
  | fuel + 1, sofar, cursor => do
    if !cursor.isAt '"' then cursor.fail .propertyName
    let (name, cursor) ← stringAt cursor
    let cursor := cursor.skipSpace
    if !cursor.isAt ':' then cursor.fail .colon
    let (value, cursor) ← valueAt fuel (cursor.advance 1).skipSpace
    let members := insertMember name value sofar
    let cursor := cursor.skipSpace
    if cursor.isAt '\x7d' then pure (members, cursor.advance 1)
    else if cursor.isAt ',' then membersAt fuel members (cursor.advance 1).skipSpace
    else cursor.fail .comma

/-- Reads the items from here to the end of the list. -/
def itemsAt : (fuel : Nat) → Cursor → Except Fault (List Json × Cursor)
  | 0, cursor => cursor.fail .value
  | fuel + 1, cursor => do
    let (item, cursor) ← valueAt fuel cursor
    let cursor := cursor.skipSpace
    if cursor.isAt ']' then pure ([item], cursor.advance 1)
    else if cursor.isAt ',' then
      let (items, cursor) ← itemsAt fuel (cursor.advance 1).skipSpace
      pure (item :: items, cursor)
    else cursor.fail .comma

end

/-- Reads a text from its beginning to its end. Between two code points that are read at most two
steps are taken, which bounds their number. -/
def document (t : Text) : Except Fault Json := do
  let start : Cursor := ⟨0, t⟩
  if t.head? = some (CodePoint.ofNat 0xFEFF) then start.fail .byteOrderMark
  let (value, cursor) ← valueAt (2 * t.length + 2) start.skipSpace
  let cursor := cursor.skipSpace
  if cursor.rest.isEmpty then pure value else cursor.fail .extraData

def parse (t : Text) : Except SyntaxFault Json := (document t).mapError (·.inText t)

end Json

end LedgerWire
