import MaxEnt.Event.Basic
import MaxEnt.Json.Parser
import MaxEnt.Json.Printer
import MaxEnt.TextFile

namespace MaxEnt.Spool

/-- The line that keeps an event, without values, between two readings. -/
def line (e : Event) : Text := (Json.array [.string e.outcome, .ofTexts e.context]).text

def text? : Json → Option Text
  | .string t => some t
  | _ => none

def event? (line : Text) : Option Event :=
  match Json.parse line with
  | .ok (.array [.string outcome, .array context]) =>
    (context.mapM text?).map fun names => ⟨outcome, .plain names⟩
  | _ => none

def file (events : List Event) : List UInt8 :=
  (Utf8.encode (events.flatMap fun e => line e ++ ↑ "\n")).getD []

def replay (events : List Event) : List Event := (Lines.ofBytes (file events)).read.filterMap event?

end MaxEnt.Spool
