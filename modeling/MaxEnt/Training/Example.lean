import MaxEnt.Index.Basic
import MaxEnt.Scalar

namespace MaxEnt

structure Example (κ : Type) where
  features : List (Nat × κ)
  outcome : Nat
  weight : κ

inductive IndexFault where
  | tooLarge (number : Int)
  | unequalColumns
  | missingValues
  | unknownPredicate (place : Int)
  | unknownOutcome (place : Int)
  deriving DecidableEq

namespace Example

variable {κ : Type} [Scalar κ]

def addFeature (features : List (Nat × κ)) (f : Nat × κ) : List (Nat × κ) :=
  match features with
  | [] => [f]
  | g :: gs => if g.1 = f.1 then (g.1, g.2 + f.2) :: gs else g :: addFeature gs f

def combine (features : List (Nat × κ)) : List (Nat × κ) := features.foldl addFeature []

end Example

namespace EventIndex

def cut {α : Type} : List Nat → List α → List (List α)
  | [], _ => []
  | n :: ns, xs => xs.take n :: cut ns (xs.drop n)

/-- A column of one number stands for one of any height. -/
def stretch (height : Nat) : List Int → List Int
  | [x] => List.replicate height x
  | xs => xs

/-- Places count from the end where they are negative. -/
def outcomePlace (count : Nat) (place : Int) : Nat :=
  (if place < 0 then place + count else place).toNat

def checkAll (p : Int → Bool) (fault : Int → IndexFault) (xs : List Int) : Except IndexFault Unit :=
  match xs.find? (!p ·) with
  | some x => .error (fault x)
  | none => .ok ()

def isShort (n : Int) : Bool := -9223372036854775808 ≤ n && n < 9223372036854775808

/-- The contexts, one for each outcome. A single empty one stands for as many. -/
def rows (x : EventIndex) : List (List Int) :=
  if x.contexts = [[]] then List.replicate x.outcomes.length [] else x.contexts

/-- Checks the contexts and their values, then the counts, then the outcomes. -/
def check (x : EventIndex) : Except IndexFault Unit := do
  let height := x.outcomes.length
  let places := x.contexts.flatten
  if x.contexts.length ≠ height ∧ x.contexts.length ≠ 1 then throw .unequalColumns
  checkAll isShort .tooLarge places
  if (x.values.map (·.flatten.length)).any (· < places.length) then throw .missingValues
  if x.rows.length ≠ height then throw .unequalColumns
  checkAll (fun p => 0 ≤ p && p < x.predicates.length) .unknownPredicate places
  checkAll (fun n => (Binary64.ofInt n).isFinite) .tooLarge x.counts
  checkAll isShort .tooLarge x.outcomes
  if (stretch height x.counts).length ≠ height then throw .unequalColumns
  checkAll (fun o => -x.labels.length ≤ o && o < x.labels.length) .unknownOutcome x.outcomes

variable (κ : Type) [Scalar κ]

def features (x : EventIndex) : List (List (Nat × κ)) :=
  let places := x.contexts.flatten.map Int.toNat
  let values : List κ := match x.values with
    | none => places.map fun _ => 1
    | some vs => vs.flatten.map Scalar.ofBinary64
  (cut (x.rows.map List.length) (places.zip values)).map Example.combine

def examples (x : EventIndex) : Except IndexFault (List (Example κ)) := do
  x.check
  let counts := stretch x.outcomes.length x.counts
  return (x.features κ).zipWith (fun fs (o, n) => ⟨fs, outcomePlace x.labels.length o, Scalar.ofInt n⟩)
    (x.outcomes.zip counts)

end EventIndex

end MaxEnt
