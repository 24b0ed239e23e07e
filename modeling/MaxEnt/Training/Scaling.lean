import MaxEnt.Model.Basic
import MaxEnt.Training.Example

namespace MaxEnt

/-- Generalized iterative scaling: the examples, for each predicate and outcome the logarithm of the
value that was observed for the pair, unless the pair has no weight, and the correction by which
steps are divided. -/
structure Scaling (κ : Type) where
  outcomes : Nat
  examples : List (Example κ)
  goals : List (List (Option κ))
  correction : κ

namespace Scaling

variable {κ : Type} [Scalar κ]

/-- The smallest double of full precision, below which no logarithm is taken. -/
def tiny : κ := Scalar.ofBinary64 (.ofMagnitude false 0x0010000000000000)

def addMultiple (factor : κ) (row : List κ) (sums : List κ) : List κ :=
  sums.zipWith (fun sum x => sum + factor * x) row

def zeros (outcomes : Nat) : List κ := List.replicate outcomes 0

def collect (predicates outcomes : Nat) (rows : List (List (Nat × κ) × List κ)) : Array (List κ) :=
  rows.foldl
    (fun sums (features, row) =>
      features.foldl (fun sums f => sums.modify f.1 (addMultiple f.2 row)) sums)
    (Array.replicate predicates (zeros outcomes))

def target (outcomes : Nat) (e : Example κ) : List κ := (zeros outcomes).set e.outcome e.weight

def observed (predicates outcomes : Nat) (examples : List (Example κ)) : Array (List κ) :=
  collect predicates outcomes (examples.map fun e => (e.features, target outcomes e))

/-- The logarithm of a value that was observed. Others are replaced if there is a replacement, else
the pair has no weight. -/
def goal (replacement : Option κ) (x : κ) : Option κ :=
  if Scalar.lt 0 x then some (Scalar.log x) else replacement.map Scalar.log

def mass (e : Example κ) : κ := Scalar.sum (e.features.map Prod.snd)

/-- The greatest sum of values in an example, or one if that is not positive. -/
def greatestMass (examples : List (Example κ)) : κ :=
  if examples.isEmpty then 1
  else
    let c := Scalar.greatest (examples.map mass)
    if Scalar.le c 0 then 1 else c

def ofExamples (predicates outcomes : Nat) (replacement : Option κ) (examples : List (Example κ)) :
    Scaling κ where
  outcomes := outcomes
  examples := examples
  goals := (observed predicates outcomes examples).toList.map (·.map (goal replacement))
  correction := greatestMass examples

def start (s : Scaling κ) : Array (List κ) := (s.goals.map fun _ => zeros s.outcomes).toArray

def scores (s : Scaling κ) (weights : Array (List κ)) (e : Example κ) : List κ :=
  e.features.foldl (fun sums f => addMultiple f.2 (weights.getD f.1 []) sums) (zeros s.outcomes)

def probabilities (s : Scaling κ) (weights : Array (List κ)) : List (List κ) :=
  s.examples.map fun e => Scalar.softmax (s.scores weights e)

def likelihood (s : Scaling κ) (rows : List (List κ)) : κ :=
  Scalar.sum (s.examples.zipWith
    (fun e row => e.weight * Scalar.log (Scalar.greater (row.getD e.outcome 0) tiny)) rows)

def expected (s : Scaling κ) (rows : List (List κ)) : Array (List κ) :=
  collect s.goals.length s.outcomes
    (s.examples.zipWith (fun e row => (e.features, row.map (· * e.weight))) rows)

def improveWeight (correction : κ) (goal : Option κ) (expected weight : κ) : κ :=
  match goal with
  | none => weight
  | some g => weight + (g - Scalar.log (Scalar.greater expected tiny)) / correction

def improveRow (correction : κ) (goals : List (Option κ)) (expected weights : List κ) : List κ :=
  (goals.zip expected).zipWith (fun (g, x) w => improveWeight correction g x w) weights

def improve (s : Scaling κ) (rows : List (List κ)) (weights : Array (List κ)) : Array (List κ) :=
  ((s.goals.zip (s.expected rows).toList).zipWith (fun (g, x) w => improveRow s.correction g x w)
    weights.toList).toArray

def distance (x y : κ) : κ := if Scalar.lt (x - y) 0 then 0 - (x - y) else x - y

/-- Weights with the number of steps that led to them, the likelihood before the last step, and the
steps before which the likelihood had fallen. -/
structure Result (κ : Type) where
  weights : Array (List κ)
  steps : Nat
  likelihood : κ
  diverging : List Nat

/-- Takes at most `left` steps after `done` ones. A step is the last when the likelihood before it
differs from the previous one by less than the threshold. -/
def run (s : Scaling κ) (threshold : κ) :
    (left done : Nat) → (previous : Option κ) → Array (List κ) → Result κ
  | 0, done, previous, weights => ⟨weights, done, previous.getD 0, []⟩
  | left + 1, done, previous, weights =>
    let rows := s.probabilities weights
    let l := s.likelihood rows
    let next := s.improve rows weights
    let fallen := if previous.any (Scalar.lt l ·) then [done + 1] else []
    if previous.any fun p => Scalar.lt (distance l p) threshold then
      ⟨next, done + 1, l, fallen⟩
    else
      let r := run s threshold left (done + 1) (some l) next
      { r with diverging := fallen ++ r.diverging }

def predicate (goals : List (Option κ)) (weights : List κ) : Predicate κ :=
  ⟨(goals.zip weights).zipIdx.filterMap fun ((g, w), place) => g.map fun _ => ((place : Int), w)⟩

def predicates (s : Scaling κ) (names : List Text) (weights : Array (List κ)) :
    List (Text × Predicate κ) :=
  names.zip ((s.goals.zip weights.toList).map fun (g, w) => predicate g w)

end Scaling

end MaxEnt
