import MaxEnt.Binary64.Basic
import MaxEnt.Table

namespace MaxEnt

/-- A JSON value. Integers and doubles are kept apart, and the keys of an object in order. -/
inductive Json where
  | null
  | bool (b : Bool)
  | int (n : Int)
  | real (x : Binary64)
  | string (t : Text)
  | array (items : List Json)
  | object (fields : List (Text × Json))
  deriving Inhabited

namespace Json

def field? (key : Text) : Json → Option Json
  | object fields => fields.lookup key
  | _ => none

/-- Whether a value affirms: nothing that is null, zero or empty does. -/
def affirms : Json → Bool
  | null => false
  | bool b => b
  | int n => n != 0
  | real x => x.magnitude != 0
  | string t => !t.isEmpty
  | array items => !items.isEmpty
  | object fields => !fields.isEmpty

def ofTable (t : Table Text Json) : Json := object t.entries

def ofTexts (ts : List Text) : Json := array (ts.map string)

end Json

end MaxEnt
