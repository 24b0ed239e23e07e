import MaxEnt.Evaluation.Distribution
import MaxEnt.Event.Basic
import MaxEnt.Model.Probability

namespace MaxEnt

structure Verdict where
  actual : Text
  predicted : Text
  deriving DecidableEq

/-- A label as it is compared with others: NULs at its end do not count. -/
def Text.withoutNulls (label : Text) : Text := Text.dropLastWhile (· = 0) label

namespace Verdict

def withoutNulls (v : Verdict) : Verdict := ⟨v.actual.withoutNulls, v.predicted.withoutNulls⟩

end Verdict

inductive EvaluationError where
  | missingValue (e : MissingValue)
  | noBest (e : Model.BestError)
  | noEvents (dataset : Text)
  deriving DecidableEq

def EvaluationError.noEventsMessage (dataset : Text) : Text :=
  Text.concat ["No events to evaluate in ", dataset, " set"]

namespace Verdicts

variable (vs : List Verdict)

def confused (actual predicted : Text) : Nat := vs.count ⟨actual, predicted⟩

def support (label : Text) : Nat := vs.countP (·.actual == label)

def claimed (label : Text) : Nat := vs.countP (·.predicted == label)

def hits (label : Text) : Nat := confused vs label label

def correct : Nat := vs.countP fun v => v.actual == v.predicted

def labels : List Text := Text.sorted (vs.map Verdict.actual ++ vs.map Verdict.predicted)

/-- The labels, without those that come again. -/
def lastOnes : List Text → List (Option Text)
  | [] => []
  | label :: labels => (if labels.contains label then none else some label) :: lastOnes labels

/-- Row by row how often a label was taken for each. Of a label that is there more than once only the
last is counted. -/
def confusion (labels : List Text) : List (List Nat) :=
  let count : Option Text → Option Text → Nat
    | some actual, some predicted => confused vs actual predicted
    | _, _ => 0
  (lastOnes labels).map fun actual => (lastOnes labels).map (count actual)

end Verdicts

structure Figures (κ : Type) where
  precision : κ
  coverage : κ
  f1 : κ
  support : Nat

inductive ReportEntry (κ : Type) where
  | figures (f : Figures κ)
  | accuracy (a : κ)

structure Evaluation (κ : Type) where
  accuracy : κ
  f1 : κ
  labels : List Text
  confusion : List (List Nat)
  report : Table Text (ReportEntry κ)
  total : Nat

namespace Figures

variable {κ : Type} [Scalar κ]

/-- A quotient of counts; zero where there is nothing to divide by. -/
def ratio (part whole : Nat) : κ := if whole = 0 then 0 else Scalar.ofInt part / Scalar.ofInt whole

def ofLabel (vs : List Verdict) (label : Text) : Figures κ :=
  let hits := Verdicts.hits vs label
  let claimed := Verdicts.claimed vs label
  let support := Verdicts.support vs label
  ⟨ratio hits claimed, ratio hits support, ratio (2 * hits) (support + claimed), support⟩

def average (weighted : List (Nat × κ)) : κ :=
  Scalar.sum (weighted.map fun (n, x) => Scalar.ofInt n * x) /
    Scalar.ofInt ((weighted.map Prod.fst).foldr (· + ·) 0 : Nat)

def averages (weigh : Figures κ → Nat) (fs : List (Figures κ)) : Figures κ :=
  let mean (part : Figures κ → κ) := average (fs.map fun f => (weigh f, part f))
  ⟨mean precision, mean coverage, mean f1, (fs.map support).foldr (· + ·) 0⟩

end Figures

namespace Evaluation

variable {κ : Type} [Scalar κ]

def entries (labels : List Text) (fs : List (Figures κ)) : List (Text × ReportEntry κ) :=
  labels.zip (fs.map .figures)

def summaries (vs : List Verdict) (labels : List Text) (fs : List (Figures κ)) :
    List (Text × ReportEntry κ) :=
  let hits := (labels.map (Verdicts.hits vs)).foldr (· + ·) 0
  let claimed := (labels.map (Verdicts.claimed vs)).foldr (· + ·) 0
  [("accuracy", .accuracy (Figures.ratio hits claimed)),
    ("macro avg", .figures (Figures.averages (fun _ => 1) fs)),
    ("weighted avg", .figures (Figures.averages Figures.support fs))]

/-- The figures of each label and then of all, to which a label contributes as often as it is there.
A label that is called as one of the latter gives its place to it. -/
def reportOf (vs : List Verdict) (labels : List Text) : Table Text (ReportEntry κ) :=
  let fs := labels.map (Figures.ofLabel vs)
  .ofList (entries labels fs ++ summaries vs labels fs)

/-- The evaluation of verdicts over labels that are compared as they are; the f1 figure is over those
that occur. -/
def ofCompared (vs : List Verdict) (labels : List Text) : Evaluation κ where
  accuracy := Figures.ratio (Verdicts.correct vs) vs.length
  f1 := (Figures.averages Figures.support ((Verdicts.labels vs).map (Figures.ofLabel vs))).f1
  labels := labels
  confusion := Verdicts.confusion vs labels
  report := reportOf vs labels
  total := vs.length

def ofVerdicts (vs : List Verdict) (labels : List Text) : Evaluation κ :=
  { ofCompared (vs.map Verdict.withoutNulls) (labels.map Text.withoutNulls) with labels := labels }

end Evaluation

namespace Model

variable {κ : Type} [Scalar κ]

def verdict (m : Model κ) (e : Event) : Except EvaluationError Verdict := do
  let ps ← (m.probabilities e.context (e.values.map (·.map Scalar.ofBinary64))).mapError
    .missingValue
  let predicted ← (m.best ps).mapError .noBest
  return ⟨e.outcome, predicted⟩

def evaluate (m : Model κ) (dataset : Text) (events : List Event) :
    Except EvaluationError (Evaluation κ) := do
  let vs ← events.mapM m.verdict
  if vs.isEmpty then throw (.noEvents dataset)
  return .ofVerdicts vs (Text.sorted (m.labels ++ events.map Event.outcome))

end Model

end MaxEnt
