import MaxEnt.Document.File
import MaxEnt.Event.File

namespace MaxEnt

inductive CorpusFormat where
  | events
  | realEvents
  | documents
  deriving DecidableEq

namespace CorpusFormat

def all : List CorpusFormat := [events, realEvents, documents]

def name : CorpusFormat → Text
  | events => "events"
  | realEvents => "real_events"
  | documents => "doccat"

def ofName? (name : Text) : Option CorpusFormat := all.find? (·.name == name)

def unknown (name : Text) : Text :=
  Text.concat ["Unknown training data format: ", name, " (expected one of ",
    List.intercalate ", " (all.map CorpusFormat.name), ")"]

end CorpusFormat

structure Corpus where
  events : Drain CorpusError Event
  warnings : List Text

namespace Corpus

def ofLines (lines : Lines) : CorpusFormat → Corpus
  | .events => ⟨EventFile.events false lines, []⟩
  | .realEvents => ⟨EventFile.events true lines, []⟩
  | .documents =>
    ⟨⟨(DocumentFile.documents lines).map (Document.event []),
      if lines.undecodable then some .undecodable else none⟩,
      (DocumentFile.skippedLines lines).map DocumentFile.warning⟩

def read (format : CorpusFormat) (bytes : List UInt8) : Corpus := ofLines (Lines.ofBytes bytes) format

end Corpus

end MaxEnt
