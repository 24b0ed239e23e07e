import MaxEnt.Parameters.Basic
import MaxEnt.Text.Blank
import MaxEnt.TextFile

namespace MaxEnt

inductive PropertiesError where
  | invalidLine (line : Text)
  | undecodable
  | mapping (e : MappingError)

namespace PropertiesError

def invalidLineMessage (line : Text) : Text := "Invalid parameter line: " ++ line

end PropertiesError

namespace PropertiesFile

def isProperty (line : Text) : Bool :=
  match line with
  | [] => false
  | c :: _ => c != ↑ '#' && c != ↑ '!'

def pair (line : Text) : Except PropertiesError (Text × Json) :=
  match line.splitFirst '=' with
  | some (key, value) => .ok (Text.strip key, .string (Text.strip value))
  | none => .error (.invalidLine line)

def pairs (lines : List Text) : Except PropertiesError (List (Text × Json)) :=
  ((lines.map Text.strip).filter isProperty).mapM pair

/-- Reads `key=value` lines. A line that is none is told before a value that does not convert. -/
def parameters (lines : Lines) : Except PropertiesError Parameters := do
  let es ← pairs lines.read
  if lines.undecodable then throw .undecodable
  (Parameters.ofMapping (.ofList es)).mapError .mapping

def read (bytes : List UInt8) : Except PropertiesError Parameters :=
  parameters (Lines.ofBytes bytes)

end PropertiesFile

end MaxEnt
