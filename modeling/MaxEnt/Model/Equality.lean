import MaxEnt.Binary64.Basic
import MaxEnt.Model.Basic

namespace MaxEnt

def Predicate.equals (p q : Predicate Binary64) : Bool :=
  p.outcomes == q.outcomes && (p.params.zip q.params).all fun (x, y) => x.equals y

/-- Same labels and equal predicates under the same names, in any order. -/
def Model.equals (m n : Model Binary64) : Bool :=
  m.labels == n.labels && m.predicates.size == n.predicates.size &&
    m.predicates.entries.all fun (name, p) =>
      match n.predicates.get? name with
      | some q => p.equals q
      | none => false

end MaxEnt
