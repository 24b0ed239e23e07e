import MaxEnt.Event.Basic

namespace MaxEnt.Event

/-- A predicate with the number after its last equals sign; without such a sign the value is one. -/
def pairOf (feature : Text) : Except EventError (Text × Binary64) :=
  match Text.splitLast '=' feature with
  | none => .ok (feature, .one)
  | some (name, value) =>
    match Numeral.real? value with
    | some x => .ok (name, x)
    | none => .error (.invalidValue feature)

/-- Reads a line: its first word is the outcome, the others are predicates, with their values if
the events are real-valued. -/
def ofLine (realValued : Bool) (line : Text) : Except EventError Event :=
  match Text.words line with
  | [] => .error .blankLine
  | outcome :: features =>
    if realValued then (features.mapM pairOf).map fun pairs => ⟨outcome, .valued pairs⟩
    else .ok ⟨outcome, .plain features⟩

end MaxEnt.Event
