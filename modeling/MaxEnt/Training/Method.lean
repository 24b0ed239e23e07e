import MaxEnt.Numeral.Real
import MaxEnt.Parameters.Basic
import MaxEnt.Training.Scaling

namespace MaxEnt

structure Trained where
  model : Model Binary64
  report : Table Text Json

inductive MethodError where
  | index (fault : IndexFault)
  | model (e : ModelError)
  | unusable (p : Parameter)
  deriving DecidableEq

structure Method where
  /-- The algorithm that is reported; if empty, the one of the parameters. -/
  name : Text
  sorts : Bool
  /-- Trains after a number of earlier runs, and tells of what is warned. -/
  train : (runs : Nat) → Parameters → EventIndex → Except MethodError Trained × List Text

namespace Scaling

structure Plan where
  steps : Nat
  replacement : Option Binary64
  threshold : Option Binary64

namespace Plan

def replacement? (ps : Parameters) : Except Parameter (Option Binary64) :=
  if ps.smoothing.json.affirms then
    match Number.ofJson? ps.smoothingObservation.json with
    | some n => .ok (some n.toBinary64)
    | none => .error .smoothingObservation
  else .ok none

def steps? (ps : Parameters) : Except Parameter Nat :=
  match (Number.ofJson? ps.iterations.json).bind Number.toInt? with
  | some n => .ok n.toNat
  | none => .error .iterations

/-- That the threshold is no number shows at the second step, when it is first needed. -/
def ofParameters (ps : Parameters) : Except Parameter Plan := do
  let replacement ← replacement? ps
  let steps ← steps? ps
  match Number.ofJson? ps.threshold.json with
  | some n => return ⟨steps, replacement, some n.toBinary64⟩
  | none => return ⟨min steps 2, replacement, none⟩

end Plan

variable (κ : Type) [Scalar κ]

def ofIndex (p : Plan) (x : EventIndex) : Except IndexFault (Scaling κ) :=
  (x.examples κ).map
    (ofExamples x.predicates.length x.labels.length (p.replacement.map Scalar.ofBinary64))

def solve (p : Plan) (x : EventIndex) : Except IndexFault (Scaling κ × Result κ) := do
  let s ← ofIndex κ p x
  return (s, s.run (Scalar.ofBinary64 (p.threshold.getD .zero)) p.steps 0 none s.start)

def model {κ : Type} [Scalar κ] (x : EventIndex) (s : Scaling κ) (r : Result κ) :
    Except ModelError (Model κ) :=
  Model.ofTable x.labels (.ofList (s.predicates x.predicates r.weights))

def train (p : Plan) (x : EventIndex) : Except MethodError (Model κ × Result κ) := do
  let (s, r) ← (solve κ p x).mapError .index
  let m ← (model x s r).mapError .model
  return (m, r)

def warning (step : Nat) : Text := "Model diverging at iteration " ++ Numeral.ofNat step

def report (steps : Nat) (likelihood : Binary64) : Table Text Text :=
  .ofList [("Iterations", Numeral.ofNat steps), ("LogLikelihood", Numeral.fixed 6 likelihood)]

def trainFloat (p : Plan) (x : EventIndex) : Except MethodError Trained × List Text :=
  match solve Float p x with
  | .error fault => (.error (.index fault), [])
  | .ok (s, r) =>
    let trained : Except MethodError Trained := do
      if p.threshold.isNone && 1 < r.steps then throw (.unusable .threshold)
      let m ← (model x s r).mapError .model
      return ⟨m.map .ofFloat, (report r.steps (.ofFloat r.likelihood)).map .string⟩
    (trained, r.diverging.map warning)

end Scaling

namespace Method

/-- Scaling with doubles. The index is checked before the parameters. -/
def scaling : Method where
  name := "MAXENT"
  sorts := true
  train _ ps x :=
    match x.check, Scaling.Plan.ofParameters ps with
    | .error fault, _ => (.error (.index fault), [])
    | .ok (), .error p => (.error (.unusable p), [])
    | .ok (), .ok plan => Scaling.trainFloat plan x

def ofName? (name : Text) : Option Method := if name = scaling.name then some scaling else none

end Method

end MaxEnt
