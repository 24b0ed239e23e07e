import MaxEnt.Text.Digit
import MaxEnt.Text.Printable

namespace MaxEnt.Text

def hexDigits (width n : Nat) : Text :=
  (List.range width).reverse.map fun i => CodePoint.ofHex (n / Nat.pow 16 i % 16)

def quoteCodePoint (mark c : CodePoint) : Text :=
  if c = mark || c = '\\' then ['\\', c]
  else if c = '\t' then "\\t"
  else if c = '\n' then "\\n"
  else if c = '\r' then "\\r"
  else if c.isPrintable then [c]
  else if c.val < 0x100 then "\\x" ++ hexDigits 2 c.val
  else if c.val < 0x10000 then "\\u" ++ hexDigits 4 c.val
  else "\\U" ++ hexDigits 8 c.val

/-- Apostrophes enclose the text, or quotation marks where it holds apostrophes and no quotation
mark. -/
def quoted (t : Text) : Text :=
  let mark : CodePoint := if t.contains ↑ '\'' && !t.contains ↑ '"' then '"' else '\''
  mark :: t.flatMap (quoteCodePoint mark) ++ [mark]

end MaxEnt.Text
