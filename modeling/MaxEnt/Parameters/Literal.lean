import MaxEnt.Json.Basic
import MaxEnt.Numeral.Real
import MaxEnt.Text.Quoted

namespace MaxEnt.Json

mutual

/-- A value inside a list or a mapping as a property shows it: texts are quoted. -/
def literal : Json → Text
  | null => "None"
  | bool b => if b then "True" else "False"
  | int n => Numeral.ofInt n
  | real x => Numeral.ofReal x
  | string t => Text.quoted t
  | array items => Text.concat ["[", List.intercalate ", " (itemLiterals items), "]"]
  | object fields => Text.concat ["\x7b", List.intercalate ", " (fieldLiterals fields), "\x7d"]

def itemLiterals : List Json → List Text
  | [] => []
  | item :: items => item.literal :: itemLiterals items

def fieldLiterals : List (Text × Json) → List Text
  | [] => []
  | (key, value) :: fields =>
    Text.concat [Text.quoted key, ": ", value.literal] :: fieldLiterals fields

end

def shown : Json → Text
  | string t => t
  | j => j.literal

def property : Json → Text
  | bool b => if b then "true" else "false"
  | j => j.shown

end MaxEnt.Json
