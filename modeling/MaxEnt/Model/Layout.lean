import MaxEnt.Model.Equality

namespace MaxEnt

def pattern (outcomes : List Int) : Text := outcomes.flatMap fun o => ↑ ' ' :: Numeral.ofInt o

structure NamedPredicate where
  name : Text
  outcomes : List Int
  params : List Binary64

namespace NamedPredicate

/-- Fewer outcomes come first, then smaller ones, then smaller names. -/
def precedes (a b : NamedPredicate) : Bool :=
  a.outcomes.length < b.outcomes.length ||
    (a.outcomes.length == b.outcomes.length &&
      (decide (a.outcomes < b.outcomes) || (a.outcomes == b.outcomes && decide (a.name < b.name))))

def equals (a b : NamedPredicate) : Bool :=
  a.name == b.name && a.outcomes == b.outcomes && a.params.length == b.params.length &&
    (a.params.zip b.params).all fun (x, y) => x.equals y

def precedesOrEquals (a b : NamedPredicate) : Bool := a.precedes b || a.equals b

def follows (a b : NamedPredicate) : Bool := !a.precedes b && !a.equals b

def followsOrEquals (a b : NamedPredicate) : Bool := !a.precedes b

def samePattern (a b : NamedPredicate) : Bool := a.outcomes == b.outcomes

end NamedPredicate

structure PredicateGroup where
  outcomes : List Int
  members : List NamedPredicate

namespace PredicateGroup

def token (g : PredicateGroup) : Text := Numeral.ofNat g.members.length ++ pattern g.outcomes

def cons (p : NamedPredicate) : List PredicateGroup → List PredicateGroup
  | [] => [⟨p.outcomes, [p]⟩]
  | g :: gs =>
    if p.outcomes = g.outcomes then ⟨g.outcomes, p :: g.members⟩ :: gs
    else ⟨p.outcomes, [p]⟩ :: g :: gs

/-- The longest runs of predicates with the same outcomes. -/
def ofList (ps : List NamedPredicate) : List PredicateGroup := ps.foldr cons []

end PredicateGroup

namespace Model

def namedPredicates (m : Model Binary64) : List NamedPredicate :=
  m.predicates.entries.map fun (name, p) => ⟨name, p.outcomes, p.params⟩

def sorted (m : Model Binary64) : List NamedPredicate :=
  m.namedPredicates.mergeSort fun a b => !b.precedes a

def groups (m : Model Binary64) : List PredicateGroup := PredicateGroup.ofList m.sorted

end Model

end MaxEnt
