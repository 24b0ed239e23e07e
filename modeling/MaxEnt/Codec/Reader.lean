import MaxEnt.Codec.Error
import MaxEnt.Codec.Field
import MaxEnt.Numeral.Real

namespace MaxEnt

/-- Reading from an input of type `σ`. What fails has still used up what it looked at. -/
abbrev Reading (σ α : Type) := ExceptT ReadError (StateM σ) α

namespace Reading

variable {σ α : Type}

def times (read : Reading σ α) : Nat → Reading σ (List α)
  | 0 => pure []
  | n + 1 => do
    let x ← read
    let xs ← times read n
    pure (x :: xs)

end Reading

structure Reader (σ : Type) where
  utf : Reading σ Text
  int : Reading σ Int
  double : Reading σ Binary64

/-- How many predicates have which outcomes. -/
structure GroupPattern where
  count : Nat
  outcomes : List Int
  deriving DecidableEq

namespace GroupPattern

/-- Integers between single blanks, the first of them not negative. -/
def ofToken? (token : Text) : Option GroupPattern :=
  match (token.splitOn ' ').mapM Numeral.integer? with
  | some (count :: outcomes) => if count < 0 then none else some ⟨count.toNat, outcomes⟩
  | _ => none

def ofToken (token : Text) : Except ReadError GroupPattern :=
  match ofToken? token with
  | some p => .ok p
  | none => .error (.noPattern token)

def covered (ps : List GroupPattern) : Nat := (ps.map count).foldr (· + ·) 0

def spread (ps : List GroupPattern) : List (List Int) :=
  ps.flatMap fun p => List.replicate p.count p.outcomes

end GroupPattern

namespace Reader

variable {σ : Type}

def count (r : Reader σ) : Reading σ Nat := do
  let n ← r.int
  if n < 0 then throw (.negativeCount n) else pure n.toNat

def list {α : Type} (r : Reader σ) (read : Reading σ α) : Reading σ (List α) := do
  read.times (← r.count)

def groupPattern (r : Reader σ) : Reading σ GroupPattern := do
  match GroupPattern.ofToken (← r.utf) with
  | .ok p => pure p
  | .error e => throw e

def predicates (r : Reader σ) :
    List (Text × List Int) → Reading σ (List (Text × Predicate Binary64))
  | [] => pure []
  | (name, outcomes) :: rest => do
    let params ← r.double.times outcomes.length
    let ps ← predicates r rest
    pure ((name, ⟨outcomes.zip params⟩) :: ps)

def checkCovered (covered names : Nat) : Except ReadError Unit :=
  if covered = names then .ok ()
  else if (Numeral.digits covered).length ≤ Numeral.maxDigits then
    .error (.unevenCount covered names)
  else .error .hugeCount

/-- Reads a persisted model and leaves what stands behind it. -/
def model (r : Reader σ) : Reading σ (Model Binary64) := do
  let tag ← r.utf
  if tag ≠ Model.tag then throw (.otherTag tag)
  let _ ← r.int
  let _ ← r.double
  let labels ← r.list r.utf
  let patterns ← r.list r.groupPattern
  let names ← r.list r.utf
  ExceptT.mk (pure (checkCovered (GroupPattern.covered patterns) names.length))
  let predicates ← r.predicates (names.zip (GroupPattern.spread patterns))
  match Model.ofTable labels (Table.ofList predicates) with
  | .ok m => pure m
  | .error e => throw (.invalidModel e)

end Reader

end MaxEnt
