import MaxEnt.Numeral.Real
import MaxEnt.Text.Utf8

namespace MaxEnt

inductive EventError where
  | unequalLengths (predicates values : Nat)
  | blankLine
  | invalidValue (feature : Text)
  deriving DecidableEq

namespace EventError

def message : EventError → Text
  | unequalLengths predicates values =>
    Text.concat ["Event has ", Numeral.ofNat predicates, " predicates but ", Numeral.ofNat values,
      " values"]
  | blankLine => "Cannot parse an event from an empty line"
  | invalidValue feature => Text.concat ["Invalid predicate value in '", feature, "'"]

end EventError

/-- The predicates of an event, all with a value or all without. -/
inductive Features where
  | plain (names : List Text)
  | valued (pairs : List (Text × Binary64))
  deriving DecidableEq

structure Event where
  outcome : Text
  features : Features
  deriving DecidableEq

namespace Event

def context (e : Event) : List Text :=
  match e.features with
  | .plain names => names
  | .valued pairs => pairs.map Prod.fst

def values (e : Event) : Option (List Binary64) :=
  match e.features with
  | .plain _ => none
  | .valued pairs => some (pairs.map Prod.snd)

def ofLists (outcome : Text) (context : List Text) :
    Option (List Binary64) → Except EventError Event
  | none => .ok ⟨outcome, .plain context⟩
  | some values =>
    if values.length = context.length then .ok ⟨outcome, .valued (context.zip values)⟩
    else .error (.unequalLengths context.length values.length)

def pairText (pair : Text × Binary64) : Text := Text.concat [pair.1, "=", Numeral.ofReal pair.2]

def featureTexts (e : Event) : List Text :=
  match e.features with
  | .plain names => names
  | .valued pairs => pairs.map pairText

/-- The outcome, and in brackets the predicates with blanks between them. -/
def text (e : Event) : Text :=
  Text.concat [e.outcome, " [", List.intercalate " " e.featureTexts, "]"]

def line (e : Event) : Text := List.intercalate " " (e.outcome :: e.featureTexts)

/-- The bytes that stand for the event in the digest of a corpus. -/
def bytes? (e : Event) : Option (List UInt8) := Utf8.encode e.text

end Event

end MaxEnt
