import MaxEnt.Model.Basic
import MaxEnt.Numeral.Real
import MaxEnt.Scalar

namespace MaxEnt

variable {κ : Type} [Scalar κ]

def Predicate.addTo (p : Predicate κ) (value : κ) (scores : List κ) : List κ :=
  scores.mapIdx fun (place : Nat) s =>
    match p.weight? place with
    | some w => s + w * value
    | none => s

/-- A known predicate of the context has no value. -/
structure MissingValue where
  name : Text
  deriving DecidableEq

def valued (context : List Text) : Option (List κ) → List (Text × Option κ)
  | none => context.map fun name => (name, some 1)
  | some values => pair context values
where
  pair : List Text → List κ → List (Text × Option κ)
    | [], _ => []
    | name :: names, [] => (name, none) :: pair names []
    | name :: names, value :: values => (name, some value) :: pair names values

namespace Model

/-- Adds what one predicate of a context contributes. What the model does not know, or knows
without an outcome, contributes nothing and needs no value. -/
def addScores (m : Model κ) (scores : List κ) (feature : Text × Option κ) :
    Except MissingValue (List κ) :=
  match m.predicates.get? feature.1 with
  | none => .ok scores
  | some p =>
    if p.weights.isEmpty then .ok scores
    else match feature.2 with
      | some value => .ok (p.addTo value scores)
      | none => .error ⟨feature.1⟩

def scores (m : Model κ) (context : List Text) (values : Option (List κ)) :
    Except MissingValue (List κ) :=
  (valued context values).foldlM m.addScores (m.labels.map fun _ => 0)

def probabilities (m : Model κ) (context : List Text) (values : Option (List κ)) :
    Except MissingValue (List κ) :=
  (m.scores context values).map Scalar.softmax

inductive BestError where
  | noProbabilities
  | noLabel (place : Nat)
  deriving DecidableEq

/-- The first label of the greatest probability. -/
def best (m : Model κ) (probabilities : List κ) : Except BestError Text :=
  match Scalar.placeOfGreatest? probabilities with
  | none => .error .noProbabilities
  | some place =>
    match m.labels[place]? with
    | some label => .ok label
    | none => .error (.noLabel place)

end Model

def Model.listing {μ : Type} (m : Model μ) (probabilities : List Binary64) : Text :=
  List.intercalate "  " ((m.labels.zip probabilities).map fun (label, p) =>
    Text.concat [label, "[", Numeral.fixed 4 p, "]"])

end MaxEnt
