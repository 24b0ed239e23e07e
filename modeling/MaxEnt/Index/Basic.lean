import MaxEnt.Binary64.Basic
import MaxEnt.Text.Basic

namespace MaxEnt

/-- Indexed events in columns: row by row the places of the predicates, their values, the place of
the outcome and how often the row was seen; and label by label the predicates, how often each
occurred, and the outcomes. Columns from elsewhere may have any lengths and places. -/
structure EventIndex where
  contexts : List (List Int)
  values : Option (List (List Binary64))
  outcomes : List Int
  counts : List Int
  predicates : List Text
  occurrences : List Int
  labels : List Text

structure Row where
  outcome : Nat
  context : List Nat
  values : Option (List Binary64)

def valuesPrecede : List Binary64 → List Binary64 → Bool
  | _, [] => false
  | [], _ :: _ => true
  | x :: xs, y :: ys => if x.equals y then valuesPrecede xs ys else x.lessThan y

def valuesEqual : List Binary64 → List Binary64 → Bool
  | [], [] => true
  | x :: xs, y :: ys => x.equals y && valuesEqual xs ys
  | _, _ => false

namespace Row

def optionalPrecede : Option (List Binary64) → Option (List Binary64) → Bool
  | some xs, some ys => valuesPrecede xs ys
  | _, _ => false

def optionalEqual : Option (List Binary64) → Option (List Binary64) → Bool
  | none, none => true
  | some xs, some ys => valuesEqual xs ys
  | _, _ => false

/-- A smaller outcome comes first, then the context with the smaller predicate where they first
differ, then the smaller values. -/
def precedes (a b : Row) : Bool :=
  a.outcome < b.outcome || (a.outcome == b.outcome &&
    (decide (a.context < b.context) ||
      (a.context == b.context && optionalPrecede a.values b.values)))

def hasNaN (r : Row) : Bool := (r.values.getD []).any Binary64.isNaN

def equals (a b : Row) : Bool :=
  a.outcome == b.outcome && a.context == b.context && optionalEqual a.values b.values

end Row

namespace EventIndex

def ofRows (rows : List (Row × Nat)) (keepsValues : Bool) (predicates : List (Text × Nat))
    (labels : List Text) : EventIndex where
  contexts := rows.map fun r => r.1.context.map Int.ofNat
  values := if keepsValues then some (rows.map fun r => r.1.values.getD []) else none
  outcomes := rows.map fun r => r.1.outcome
  counts := rows.map fun r => r.2
  predicates := predicates.map Prod.fst
  occurrences := predicates.map fun p => p.2
  labels := labels

end EventIndex

end MaxEnt
