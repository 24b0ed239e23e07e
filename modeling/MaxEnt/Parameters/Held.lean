import MaxEnt.Parameters.Conversion
import MaxEnt.Parameters.Literal

namespace MaxEnt

/-- A kind of values that JSON shows, and to which loose values convert. -/
class Kind (α : Type) where
  convert : Json → Except ConversionError α
  json : α → Json
  ofJson? : Json → Option α

instance : Kind Text where
  convert := Conversion.text
  json := .string
  ofJson? j := match j with
    | .string t => some t
    | _ => none

instance : Kind Int where
  convert := Conversion.integer
  json := .int
  ofJson? j := match j with
    | .int n => some n
    | _ => none

instance : Kind Bool where
  convert := Conversion.truth
  json := .bool
  ofJson? j := match j with
    | .bool b => some b
    | _ => none

instance : Kind Binary64 where
  convert := Conversion.real
  json := .real
  ofJson? j := match j with
    | .real x => some x
    | _ => none

instance {α : Type} [Kind α] : Kind (Option α) where
  convert := Conversion.optional Kind.convert
  json x := (x.map Kind.json).getD .null
  ofJson? j := match j with
    | .null => some none
    | j => (Kind.ofJson? j).map some

/-- What stands where a value of a kind should: such a value, or another that was put there as it
is. -/
inductive Held (α : Type) where
  | proper (value : α)
  | loose (value : Json)

namespace Held

variable {α : Type} [Kind α]

def convert (value : Json) : Except ConversionError (Held α) := (Kind.convert value).map proper

def ofJson (value : Json) : Held α := ((Kind.ofJson? value).map proper).getD (loose value)

def json : Held α → Json
  | proper value => Kind.json value
  | loose value => value

def proper? : Held α → Option α
  | proper value => some value
  | loose _ => none

def shown (h : Held α) : Text := h.json.shown

end Held

inductive Number where
  | int (n : Int)
  | real (x : Binary64)

namespace Number

/-- Truth values are the integers zero and one. -/
def ofJson? : Json → Option Number
  | .int n => some (int n)
  | .bool b => some (int (if b then 1 else 0))
  | .real x => some (real x)
  | _ => none

def toInt? : Number → Option Int
  | int n => some n
  | real _ => none

def toBinary64 : Number → Binary64
  | int n => .ofInt n
  | real x => x

def isBelow (bound : Int) : Number → Bool
  | int n => decide (n < bound)
  | real x => x.lessThan (.ofInt bound)

end Number

end MaxEnt
