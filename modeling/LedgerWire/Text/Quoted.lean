import LedgerWire.Bytes.Basic
import LedgerWire.Text.Printable

/-!
# Quoted texts and byte strings

A message shows a text or a byte string between quotes, with a backslash before whatever would end it
early or cannot be shown. Single quotes are used, unless the content has single quotes and no double
ones.
-/

namespace LedgerWire

namespace Text

/-- The mark around a content that has, or has not, single and double quotes of its own. -/
def quoteMark (hasSingle hasDouble : Bool) : CodePoint :=
  CodePoint.ofChar (if hasSingle && !hasDouble then '"' else '\'')

/-- One code point of a text between `mark`s. -/
def escaped (mark c : CodePoint) : Text :=
  let n := c.val
  if c == mark || n == 0x5C then [CodePoint.ofChar '\\', c]
  else if n == 0x09 then "\\t"
  else if n == 0x0A then "\\n"
  else if n == 0x0D then "\\r"
  else if c.isPrintable then [c]
  else if n ≤ 0xFF then ofString "\\x" ++ hexDigits 2 n
  else if n ≤ 0xFFFF then ofString "\\u" ++ hexDigits 4 n
  else ofString "\\U" ++ hexDigits 8 n

/-- The text between quotes. -/
def quoted (t : Text) : Text :=
  let mark := quoteMark (t.any (·.val == 0x27)) (t.any (·.val == 0x22))
  mark :: t.flatMap (escaped mark) ++ [mark]

end Text

namespace Bytes

/-- One byte of a byte string between `mark`s; every byte beyond ASCII is spelled in hexadecimal. -/
def escaped (mark : CodePoint) (b : UInt8) : Text :=
  if b.toNat < 0x80 then Text.escaped mark (CodePoint.ofNat b.toNat)
  else Text.ofString "\\x" ++ Text.hexDigits 2 b.toNat

/-- The byte string between quotes, marked as one. -/
def quoted (bs : Bytes) : Text :=
  let mark := Text.quoteMark (bs.any (· == 0x27)) (bs.any (· == 0x22))
  CodePoint.ofChar 'b' :: mark :: bs.flatMap (escaped mark) ++ [mark]

end Bytes

end LedgerWire
