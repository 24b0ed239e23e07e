import MaxEnt.Drain
import MaxEnt.Event.Line
import MaxEnt.TextFile

namespace MaxEnt

inductive CorpusError where
  | event (cause : EventError)
  | undecodable
  deriving DecidableEq

namespace EventFile

/-- The events of the lines that are not blank, up to the first line that holds none. -/
def events (realValued : Bool) (lines : Lines) : Drain CorpusError Event :=
  let ls : Drain CorpusError Text :=
    ⟨lines.read.filter (!Text.isBlank ·), if lines.undecodable then some .undecodable else none⟩
  ls.andThen fun line => (Event.ofLine realValued line).mapError .event

def read (realValued : Bool) (bytes : List UInt8) : Drain CorpusError Event :=
  events realValued (Lines.ofBytes bytes)

def text (events : List Event) : Text := events.flatMap fun e => e.line ++ "\n"

def write (events : List Event) : Option (List UInt8) := Utf8.encode (text events)

end EventFile

end MaxEnt
