import MaxEnt.Json.Parser
import MaxEnt.Json.Printer
import MaxEnt.Model.Basic
import MaxEnt.TextFile

namespace MaxEnt

structure ReportedModel where
  model : Model Binary64
  report : Table Text Json

inductive MetadataError where
  | undecodable
  | notJson (e : Json.ParseError)
  | notObject
  | noEntries
  | noPair
  deriving DecidableEq

namespace Metadata

def standard (m : ReportedModel) (name version time : Text) : List (Text × Json) :=
  [("name", .string name), ("version", .string version), ("timestamp", .string time),
    ("model_type", .string "GIS"), ("outcome_labels", .ofTexts m.model.labels),
    ("n_outcomes", .int m.model.labels.length), ("n_predicates", .int m.model.predicates.size),
    ("training_report", .ofTable m.report)]

/-- The standard entries, and those of the caller, which come first where both are given. -/
def ofModel (m : ReportedModel) (name version time : Text) (entries : Table Text Json) :
    Table Text Json :=
  (Table.ofList (standard m name version time)).union entries

def bytes (t : Table Text Json) : List UInt8 := (Utf8.encode ((Json.ofTable t).indented 0)).getD []

def text? (bytes : List UInt8) : Option Text :=
  match Utf8.decodeUpToFault bytes with
  | (t, .complete) => some (Text.unifyNewlines t)
  | _ => none

def ofBytes (bytes : List UInt8) : Except MetadataError Json :=
  match text? bytes with
  | none => .error .undecodable
  | some t =>
    match Json.parse t with
    | .error e => .error (.notJson e)
    | .ok j => .ok j

inductive EntryKey where
  | null
  | int (n : Int)
  | real (x : Binary64)
  | text (t : Text)
  deriving DecidableEq

/-- Truth values are the numbers zero and one, and so are doubles that are an integer. -/
def EntryKey.ofJson? : Json → Option EntryKey
  | .null => some .null
  | .bool b => some (.int (if b then 1 else 0))
  | .int n => some (.int n)
  | .real x => some (match x.toInt? with
    | some n => .int n
    | none => .real x)
  | .string t => some (.text t)
  | .array _ => none
  | .object _ => none

def keyText : Json → Text
  | .string t => t
  | key => key.text

abbrev Entry := EntryKey × Text × Json

def entry : List Json → Except MetadataError Entry
  | [key, value] =>
    match EntryKey.ofJson? key with
    | some k => .ok (k, keyText key, value)
    | none => .error .noEntries
  | _ => .error .noPair

/-- The entries by the texts of their keys. Of the entries with one key the first gives the text and
the last the value. -/
def gather (entries : List Entry) : Table Text Json :=
  let first (k : EntryKey) : Text := ((entries.lookup k).map Prod.fst).getD []
  let values := (Table.ofList (entries.map fun (k, _, value) => (k, value))).entries
  .ofList (values.map fun (k, value) => (first k, value))

/-- An entry of a list of pairs. A text of two letters and an object of two keys are pairs too. -/
def pair : Json → Except MetadataError Entry
  | .array items => entry items
  | .string t => entry (t.map fun c => .string [c])
  | .object fields => entry (fields.map fun f => .string f.1)
  | _ => .error .noEntries

def entries : Json → Except MetadataError (Table Text Json)
  | .object fields => .ok (.ofList fields)
  | .array items => (items.mapM pair).map gather
  | .string t => if t.isEmpty then .ok .empty else .error .noPair
  | _ => .error .noEntries

def report : Json → Except MetadataError (Table Text Json)
  | .object fields =>
    match fields.lookup ↑ "training_report" with
    | some j => entries j
    | none => .ok .empty
  | _ => .error .notObject

end Metadata

end MaxEnt
