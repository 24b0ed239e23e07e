import MaxEnt.BigEndian
import MaxEnt.Drain
import MaxEnt.Event.Basic
import MaxEnt.Hex
import MaxEnt.Md5

namespace MaxEnt

/-- Events that are handed out one by one, each digested as it is. -/
structure HashStream (ε : Type) where
  left : Drain ε Event
  /-- What was handed out, last first. -/
  handed : List Event
  /-- Whether a request has found nothing left. -/
  exhausted : Bool

namespace HashStream

variable {ε : Type}

def start (events : Drain ε Event) : HashStream ε := ⟨events, [], false⟩

inductive Next (ε : Type) where
  | event (e : Event)
  /-- The event has a surrogate. It is used up and not handed out. -/
  | surrogate (e : Event)
  | failed (cause : ε)
  | stop

def next (s : HashStream ε) : Next ε × HashStream ε :=
  match s.left with
  | ⟨e :: es, failure⟩ =>
    let s := { s with left := ⟨es, failure⟩ }
    if e.text.hasSurrogate then (.surrogate e, s) else (.event e, { s with handed := e :: s.handed })
  | ⟨[], some cause⟩ => (.failed cause, { s with left := ⟨[], none⟩ })
  | ⟨[], none⟩ => (.stop, { s with exhausted := true })

inductive Fault (ε : Type) where
  | surrogate (e : Event)
  | failed (cause : ε)
  deriving DecidableEq

def drainWithin : Nat → HashStream ε → Drain (Fault ε) Event × HashStream ε
  | 0, s => (⟨[], none⟩, s)
  | fuel + 1, s =>
    match s.next with
    | (.event e, s) =>
      let (d, s) := drainWithin fuel s
      (⟨e :: d.items, d.failure⟩, s)
    | (.surrogate e, s) => (⟨[], some (.surrogate e)⟩, s)
    | (.failed cause, s) => (⟨[], some (.failed cause)⟩, s)
    | (.stop, s) => (⟨[], none⟩, s)

def drain (s : HashStream ε) : Drain (Fault ε) Event × HashStream ε :=
  drainWithin (s.left.items.length + 1) s

def count (s : HashStream ε) : Nat := s.handed.length

def digested (s : HashStream ε) : List UInt8 := s.handed.reverse.flatMap fun e => e.bytes?.getD []

/-- The digest as a number; none before the events are exhausted. -/
def hashSum? (s : HashStream ε) : Option Nat :=
  if s.exhausted then some (BigEndian.toNat (Md5.digest s.digested)) else none

def hexSum? (s : HashStream ε) : Option Text := s.hashSum?.map Hex.ofNat

def unfinished : Text := "Event stream must be exhausted before hashing"

end HashStream

end MaxEnt
