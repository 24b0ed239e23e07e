import MaxEnt.Event.Basic
import MaxEnt.Index.Basic
import MaxEnt.Index.Spool
import MaxEnt.Parameters.Held
import MaxEnt.RunSort.Basic
import MaxEnt.Table

namespace MaxEnt

inductive Indexer where
  | onePass
  /-- Predicates are counted in a first reading and events indexed in a second. -/
  | twoPass
  | onePassRealValue
  deriving DecidableEq

namespace Indexer

def all : List Indexer := [onePass, twoPass, onePassRealValue]

def name : Indexer → Text
  | onePass => "OnePass"
  | twoPass => "TwoPass"
  | onePassRealValue => "OnePassRealValue"

def ofName? (name : Text) : Option Indexer := all.find? (·.name == name)

def keepsValues (i : Indexer) : Bool := i = onePassRealValue

end Indexer

structure IndexSettings where
  indexer : Indexer
  cutoff : Int := 5
  sort : Bool := true

structure NegativeValue where
  event : Event
  deriving DecidableEq

def NegativeValue.message (n : NegativeValue) : Text :=
  "Negative predicate values are not allowed: " ++ n.event.text

/-- An index, what is reported of it, and how many events had no predicate that is kept. -/
structure Indexing where
  index : EventIndex
  report : Table Text Text
  dropped : Nat

namespace Features

/-- All predicates with a value, which is one where none is given. -/
def withValues : Features → Features
  | plain names => valued (names.map fun name => (name, .one))
  | valued pairs => valued pairs

def withoutValues : Features → Features
  | plain names => plain names
  | valued pairs => plain (pairs.map Prod.fst)

def filter (keep : Text → Bool) : Features → Features
  | plain names => plain (names.filter keep)
  | valued pairs => valued (pairs.filter fun p => keep p.1)

def isEmpty : Features → Bool
  | plain names => names.isEmpty
  | valued pairs => pairs.isEmpty

end Features

namespace Indexing

/-- How often each predicate occurs, in the order of the first occurrences. -/
def tally (events : List Event) : Table Text Nat :=
  (events.flatMap Event.context).foldl
    (fun t name => t.insert name ((t.get? name).getD 0 + 1)) .empty

def keptPredicates (cutoff : Int) (events : List Event) : List (Text × Nat) :=
  (tally events).entries.filter fun p => decide (cutoff ≤ p.2)

/-- An integer that cuts the predicates of the events off as a loose cutoff does. What is no number
can be none where there are predicates. -/
def cutoffFor (events : List Event) (cutoff : Json) : Option Int :=
  let occurrences := (events.flatMap Event.context).length
  match Number.ofJson? cutoff with
  | some (.int n) => some n
  | some (.real x) =>
    if x.isFinite then some x.ceiling
    else if x.lessThan .zero then some 0
    else some (occurrences + 1)
  | none => if occurrences = 0 then some 0 else none

def prepare (keepsValues : Bool) (e : Event) : Event :=
  { e with features := if keepsValues then e.features.withValues else e.features.withoutValues }

def keptEvents (names : List Text) (events : List Event) : List Event :=
  (events.map fun e => { e with features := e.features.filter names.contains }).filter
    fun e => !e.features.isEmpty

def outcomeLabels (events : List Event) : List Text := (events.map Event.outcome).eraseDups

def row (names labels : List Text) (e : Event) : Row :=
  ⟨labels.idxOf e.outcome, e.context.map names.idxOf, e.values⟩

def countRow (r : Row) : List (Row × Nat) → List (Row × Nat)
  | [] => [(r, 1)]
  | (s, n) :: rs => if r.equals s then (r, n + 1) :: rs else (r, 1) :: (s, n) :: rs

/-- Each row with the number of times it stands there, counted where equal ones stand together. -/
def merge (rows : List Row) : List (Row × Nat) := rows.foldr countRow []

/-- The rows in order. Values that are not a number have no place in it: where there are any, the
order is what sorting by runs makes of it. -/
def sorted (rows : List Row) : List Row :=
  if rows.any Row.hasNaN then RunSort.sort Row.precedes rows
  else rows.mergeSort fun a b => !b.precedes a

def sortAndMerge (rows : List Row) : List (Row × Nat) := merge (sorted rows)

/-- Indexes the events `kept` by the predicates that occur often enough in `counted`. -/
def build (s : IndexSettings) (counted kept : List Event) : Indexing :=
  let predicates := keptPredicates s.cutoff counted
  let names := predicates.map Prod.fst
  let events := keptEvents names (kept.map (prepare s.indexer.keepsValues))
  let labels := outcomeLabels events
  let rows := events.map (row names labels)
  let index := EventIndex.ofRows (if s.sort then sortAndMerge rows else rows.map fun r => (r, 1))
    s.indexer.keepsValues predicates labels
  { index
    report := .ofList
      [("Number of Event Tokens", Numeral.ofNat counted.length),
        ("Number of Outcomes", Numeral.ofNat labels.length),
        ("Number of Predicates", Numeral.ofNat predicates.length)]
    dropped := kept.length - events.length }

def hasNegative (e : Event) : Bool :=
  (e.values.getD []).any fun x => x.lessThan .zero

/-- Indexes events. Where values are kept none may be negative. -/
def ofEvents (s : IndexSettings) (events : List Event) : Except NegativeValue Indexing :=
  match s.indexer with
  | .onePass => .ok (build s events events)
  | .twoPass => .ok (build s events (Spool.replay events))
  | .onePassRealValue =>
    match events.find? hasNegative with
    | some e => .error ⟨e⟩
    | none => .ok (build s events events)

def warnings (i : Indexing) : List Text :=
  if i.dropped = 0 then []
  else [Text.concat ["Dropped ", Numeral.ofNat i.dropped, " events without predicates above cutoff"]]

end Indexing

end MaxEnt
