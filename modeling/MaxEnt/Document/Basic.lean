import MaxEnt.Event.Basic
import MaxEnt.Text.Blank

namespace MaxEnt

inductive DocumentError where
  | noCategory
  | noText
  | blankLine
  deriving DecidableEq

namespace DocumentError

def message : DocumentError → Text
  | noCategory => "category must not be None"
  | noText => "text must not be None"
  | blankLine => "Cannot parse a document sample from an empty line"

end DocumentError

structure Document where
  category : Text
  words : List Text
  deriving DecidableEq

namespace Document

def ofParts (category : Option Text) (words : Option (List Text)) : Except DocumentError Document :=
  match category, words with
  | none, _ => .error .noCategory
  | some _, none => .error .noText
  | some category, some words => .ok ⟨category, words⟩

/-- The category, a tab and the words with blanks between them, without blanks at the end. -/
def text (d : Document) : Text :=
  Text.stripRight (Text.concat [d.category, "\t", List.intercalate " " d.words])

def ofLine (line : Text) : Except DocumentError Document :=
  match Text.words line with
  | [] => .error .blankLine
  | category :: words => .ok ⟨category, words⟩

abbrev FeatureGenerator := List Text → List Text

def bagOfWords : FeatureGenerator := List.map fun word => "bow=" ++ word

/-- The category with the predicates of all generators; where none is given, with the bag of words. -/
def event (generators : List FeatureGenerator) (d : Document) : Event :=
  let generators := if generators.isEmpty then [bagOfWords] else generators
  ⟨d.category, .plain (generators.flatMap fun g => g d.words)⟩

end Document

end MaxEnt
