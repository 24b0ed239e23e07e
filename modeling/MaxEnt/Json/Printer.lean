import MaxEnt.Json.Basic
import MaxEnt.Numeral.Real
import MaxEnt.Text.CodeUnit
import MaxEnt.Text.Quoted

namespace MaxEnt.Json

def escapeUnit (u : CodeUnit) : Text := "\\u" ++ Text.hexDigits 4 u.val

/-- A code point inside a string: ASCII that a line can show stands as it is, and all else is
escaped, by code units where it has no letter of its own. -/
def escape (c : CodePoint) : Text :=
  if c = '"' || c = '\\' then ['\\', c]
  else if c = '\n' then "\\n"
  else if c = '\r' then "\\r"
  else if c = '\t' then "\\t"
  else if c.val = 8 then "\\b"
  else if c.val = 12 then "\\f"
  else if 32 ≤ c.val && c.val ≤ 126 then [c]
  else c.units.flatMap escapeUnit

def stringText (t : Text) : Text := Text.concat ["\"", t.flatMap escape, "\""]

def realText (x : Binary64) : Text :=
  if x.isNaN then "NaN"
  else if x.isInfinite then (if x.isNegative then "-Infinity" else "Infinity")
  else Numeral.ofReal x

mutual

def text : Json → Text
  | null => "null"
  | bool b => if b then "true" else "false"
  | int n => Numeral.ofInt n
  | real x => realText x
  | string t => stringText t
  | array items => Text.concat ["[", List.intercalate ", " (itemTexts items), "]"]
  | object fields => Text.concat ["\x7b", List.intercalate ", " (fieldTexts fields), "\x7d"]

def itemTexts : List Json → List Text
  | [] => []
  | item :: items => item.text :: itemTexts items

def fieldTexts : List (Text × Json) → List Text
  | [] => []
  | (key, value) :: fields => Text.concat [stringText key, ": ", value.text] :: fieldTexts fields

end

def newLine (depth : Nat) : Text := ↑ '\n' :: List.replicate (2 * depth) ↑ ' '

/-- Parts on a line each between an opening and a closing mark, which stand alone if there are no
parts. -/
def block (depth : Nat) (opening closing : Text) (parts : List Text) : Text :=
  if parts.isEmpty then opening ++ closing
  else Text.concat [opening, newLine (depth + 1),
    List.intercalate (↑ ',' :: newLine (depth + 1)) parts, newLine depth, closing]

mutual

def indented (depth : Nat) : Json → Text
  | array items => block depth "[" "]" (indentedItems (depth + 1) items)
  | object fields => block depth "\x7b" "\x7d" (indentedFields (depth + 1) fields)
  | null => "null"
  | bool b => if b then "true" else "false"
  | int n => Numeral.ofInt n
  | real x => realText x
  | string t => stringText t

def indentedItems (depth : Nat) : List Json → List Text
  | [] => []
  | item :: items => item.indented depth :: indentedItems depth items

def indentedFields (depth : Nat) : List (Text × Json) → List Text
  | [] => []
  | (key, value) :: fields =>
    Text.concat [stringText key, ": ", value.indented depth] :: indentedFields depth fields

end

end MaxEnt.Json
