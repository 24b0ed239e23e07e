import MaxEnt.Model.Probability
import MaxEnt.Store.Basic

namespace MaxEnt

structure Prediction (κ : Type) where
  outcome : Text
  confidence : κ
  probabilities : List (Text × κ)
  isSure : Bool

inductive PredictionError where
  | noModel (name version : Text)
  | pattern (e : FileTree.GlobError)
  | load (e : ModelStore.LoadError)
  | missingValue (e : MissingValue)
  | noBest (e : Model.BestError)

def PredictionError.noModelMessage (name version : Text) : Text :=
  Text.concat ["No model found for ", name, " version ", version]

variable {κ : Type} [Scalar κ]

def Model.predict (m : Model κ) (threshold : κ) (context : List Text) (values : Option (List κ)) :
    Except PredictionError (Prediction κ) := do
  let ps ← (m.probabilities context values).mapError .missingValue
  let outcome ← (m.best ps).mapError .noBest
  let confidence := Scalar.greatest ps
  return ⟨outcome, confidence, m.labels.zip ps, Scalar.le threshold confidence⟩

namespace ModelStore

def loadLatest (s : ModelStore) (name version : Text) :
    Except PredictionError (ReportedModel × Json) := do
  match ← (s.latest? name version).mapError .pattern with
  | none => throw (.noModel name version)
  | some p => (s.load p).mapError .load

end ModelStore

end MaxEnt
