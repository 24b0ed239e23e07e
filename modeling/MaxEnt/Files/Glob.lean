import MaxEnt.Text.Basic

namespace MaxEnt

inductive Glob.Member where
  | one (c : CodePoint)
  | span (low high : CodePoint)
  deriving DecidableEq

inductive Glob.Token where
  | star
  | question
  | one (c : CodePoint)
  | set (negated : Bool) (members : List Glob.Member)
  deriving DecidableEq

abbrev Glob := List Glob.Token

namespace Glob

namespace Member

def covers : Member → CodePoint → Bool
  | one c, d => c == d
  | span low high, c => low ≤ c && c ≤ high

def isInhabited : Member → Bool
  | one _ => true
  | span low high => low ≤ high

end Member

def Token.accepts : Token → CodePoint → Bool
  | star, _ => false
  | question, _ => true
  | one c, d => c == d
  | set negated members, c => negated != members.any (·.covers c)

def tails : Text → List Text
  | [] => [[]]
  | c :: t => (c :: t) :: tails t

def accepts : Glob → Text → Bool
  | [], t => t.isEmpty
  | .star :: g, t => (tails t).any (accepts g)
  | p :: g, t =>
    match t with
    | [] => false
    | c :: t => p.accepts c && accepts g t

/-- Code points alone, or two with a hyphen between them for all from the first to the second. -/
def spans : Text → List Member
  | [] => []
  | [c] => [.one c]
  | [c, d] => [.one c, .one d]
  | c :: h :: d :: t => if h = '-' then .span c d :: spans t else .one c :: spans (h :: d :: t)

def members (t : Text) : List Member := (spans t).filter Member.isInhabited

/-- A set is negated by an exclamation mark in front, be it that of the text or of the first member
that is left. -/
def setOf (t : Text) : Token :=
  if t.head? = some ↑ '!' then .set true (members t.tail)
  else match members t with
    | .one c :: ms => if c = '!' then .set true ms else .set false (.one c :: ms)
    | .span low high :: ms =>
      if low = '!' then .set true (.one ↑ '-' :: .one high :: ms)
      else .set false (.span low high :: ms)
    | [] => .set false []

/-- Cuts what stands behind an opening bracket at the closing one. Neither a mark of negation nor
what follows it closes the set. -/
def cutSet (t : Text) : Option (Text × Text) :=
  let negation := if t.head? = some ↑ '!' then 1 else 0
  let opening := negation + if (t.drop negation).head? = some ↑ ']' then 1 else 0
  (Text.splitFirst ']' (t.drop opening)).map fun (members, rest) => (t.take opening ++ members, rest)

def ofTextWithin : Nat → Text → Glob
  | 0, _ => []
  | _, [] => []
  | fuel + 1, c :: t =>
    if c = '*' then .star :: ofTextWithin fuel t
    else if c = '?' then .question :: ofTextWithin fuel t
    else if c = '[' then
      match cutSet t with
      | some (members, rest) => setOf members :: ofTextWithin fuel rest
      | none => .one c :: ofTextWithin fuel t
    else .one c :: ofTextWithin fuel t

/-- A star stands for any text, a question mark for one code point, brackets for one of a set. -/
def ofText (t : Text) : Glob := ofTextWithin t.length t

def isWild (t : Text) : Bool := t.any fun c => c = '*' || c = '?' || c = '['

end Glob

end MaxEnt
