import MaxEnt.Numeral.Integer
import MaxEnt.Table

namespace MaxEnt

inductive ModelError where
  | unequalLengths (outcomes params : Nat)
  | fewLabels
  | repeatedLabel
  | unknownOutcome (name : Text) (outcome : Int)
  deriving DecidableEq

namespace ModelError

def message : ModelError → Text
  | unequalLengths outcomes params =>
    Text.concat ["Predicate has ", Numeral.ofNat outcomes, " outcomes but ", Numeral.ofNat params,
      " parameters"]
  | fewLabels => "A model needs more than one outcome"
  | repeatedLabel => "Outcome labels must be unique"
  | unknownOutcome name outcome =>
    Text.concat ["Predicate ", name, " has unknown outcome index ", Numeral.ofInt outcome]

end ModelError

structure Predicate (κ : Type) where
  weights : List (Int × κ)

namespace Predicate

variable {κ μ : Type}

def outcomes (p : Predicate κ) : List Int := p.weights.map Prod.fst

def params (p : Predicate κ) : List κ := p.weights.map Prod.snd

def ofLists (outcomes : List Int) (params : List κ) : Except ModelError (Predicate κ) :=
  if outcomes.length = params.length then .ok ⟨outcomes.zip params⟩
  else .error (.unequalLengths outcomes.length params.length)

def map (f : κ → μ) (p : Predicate κ) : Predicate μ := ⟨p.weights.map fun w => (w.1, f w.2)⟩

theorem outcomes_map (f : κ → μ) (p : Predicate κ) : (p.map f).outcomes = p.outcomes := by
  simp [outcomes, map, Function.comp_def]

/-- The weight for an outcome; of several, the last. -/
def weight? (p : Predicate κ) (outcome : Int) : Option κ := p.weights.reverse.lookup outcome

def InRange (count : Nat) (p : Predicate κ) : Prop := ∀ o ∈ p.outcomes, 0 ≤ o ∧ o < count

instance (count : Nat) (p : Predicate κ) : Decidable (p.InRange count) :=
  inferInstanceAs (Decidable (∀ o ∈ p.outcomes, 0 ≤ o ∧ o < (count : Int)))

def firstOutOfRange? (count : Nat) (p : Predicate κ) : Option Int :=
  p.outcomes.find? fun o => !(0 ≤ o && o < (count : Int))

theorem inRange_of_firstOutOfRange?_eq_none {count : Nat} {p : Predicate κ}
    (h : p.firstOutOfRange? count = none) : p.InRange count := by
  intro o ho
  have := List.find?_eq_none.1 h o ho
  simpa using this

end Predicate

/-- Labels, which number the outcomes, and the weights of the predicates. -/
structure Model (κ : Type) where
  labels : List Text
  predicates : Table Text (Predicate κ)
  two_le : 2 ≤ labels.length
  labels_nodup : labels.Nodup
  inRange : ∀ p ∈ predicates.values, p.InRange labels.length

namespace Model

variable {κ μ : Type}

def unknownOutcome? (count : Nat) : List (Text × Predicate κ) → Option ModelError
  | [] => none
  | (name, p) :: es =>
    match p.firstOutOfRange? count with
    | some o => some (.unknownOutcome name o)
    | none => unknownOutcome? count es

theorem inRange_of_unknownOutcome?_eq_none {count : Nat} {es : List (Text × Predicate κ)}
    (h : unknownOutcome? count es = none) : ∀ p ∈ es.map Prod.snd, p.InRange count := by
  induction es with
  | nil => simp
  | cons e es ih =>
    obtain ⟨name, q⟩ := e
    simp only [unknownOutcome?] at h
    split at h
    · simp at h
    · rename_i hq
      intro p hp
      rcases List.mem_cons.1 hp with rfl | hp
      · exact Predicate.inRange_of_firstOutOfRange?_eq_none hq
      · exact ih h p hp

def labelError? (labels : List Text) : Option ModelError :=
  if labels.length < 2 then some .fewLabels
  else if labels.Nodup then none
  else some .repeatedLabel

/-- The model of these labels and predicates. Labels are checked before predicates. -/
def ofTable (labels : List Text) (predicates : Table Text (Predicate κ)) : Except ModelError (Model κ) :=
  if h : labels.length < 2 then .error .fewLabels
  else if hn : labels.Nodup then
    match hp : unknownOutcome? labels.length predicates.entries with
    | some e => .error e
    | none =>
      .ok ⟨labels, predicates, by omega, hn, inRange_of_unknownOutcome?_eq_none hp⟩
  else .error .repeatedLabel

def firstError? (count : Nat) : List (Text × List Int × List κ) → Option ModelError
  | [] => none
  | (name, outcomes, params) :: es =>
    match Predicate.ofLists outcomes params with
    | .error e => some e
    | .ok p =>
      match p.firstOutOfRange? count with
      | some o => some (.unknownOutcome name o)
      | none => firstError? count es

/-- The model of these labels and of predicates given by their outcomes and parameters. Each
predicate is checked in full before the next. -/
def ofLists (labels : List Text) (predicates : Table Text (List Int × List κ)) :
    Except ModelError (Model κ) :=
  match labelError? labels with
  | some e => .error e
  | none =>
    match firstError? labels.length predicates.entries with
    | some e => .error e
    | none => ofTable labels (predicates.map fun (outcomes, params) => ⟨outcomes.zip params⟩)

def map (f : κ → μ) (m : Model κ) : Model μ where
  labels := m.labels
  predicates := m.predicates.map (·.map f)
  two_le := m.two_le
  labels_nodup := m.labels_nodup
  inRange := by
    intro p hp
    simp only [Table.values, Table.map, List.map_map, List.mem_map, Function.comp_apply] at hp
    obtain ⟨e, he, rfl⟩ := hp
    unfold Predicate.InRange
    rw [Predicate.outcomes_map]
    exact m.inRange e.2 (List.mem_map_of_mem he)

/-- The label of an outcome; negative ones count from the end. -/
def outcome? (m : Model κ) (place : Int) : Option Text :=
  if 0 ≤ place then m.labels[place.toNat]?
  else if m.labels.length < (-place).toNat then none
  else m.labels[m.labels.length - (-place).toNat]?

def place? (m : Model κ) (label : Text) : Option Nat := m.labels.idxOf? label

def summary (m : Model κ) : Text :=
  Text.concat ["GISModel(outcomes=", Numeral.ofNat m.labels.length, ", predicates=",
    Numeral.ofNat m.predicates.size, ")"]

/-- Same labels and as many predicates. -/
def similar (m n : Model κ) : Bool :=
  m.labels == n.labels && m.predicates.size == n.predicates.size

end Model

end MaxEnt
