import MaxEnt.Document.Basic
import MaxEnt.TextFile

namespace MaxEnt.DocumentFile

inductive Entry where
  | blank
  | skipped
  | document (d : Document)
  deriving DecidableEq

def entry (line : Text) : Entry :=
  match Text.words line with
  | [] => .blank
  | [_] => .skipped
  | category :: words => .document ⟨category, words⟩

def documents (lines : Lines) : List Document :=
  lines.read.filterMap fun line =>
    match entry line with
    | .document d => some d
    | _ => none

/-- The numbers, from one, of the lines that hold a category alone. -/
def skippedLines (lines : Lines) : List Nat :=
  ((lines.read.map entry).zipIdx 1).filterMap fun (e, number) =>
    if e = .skipped then some number else none

def warning (line : Nat) : Text := "Skipping sample without text on line " ++ Numeral.ofNat line

end MaxEnt.DocumentFile
