import MaxEnt.Proofs.Event.HashStream
import MaxEnt.Proofs.Hex

namespace MaxEnt.HashStream

variable {ε : Type}

inductive Request where
  | next
  | drain
  | state
  | hashSum
  | hexSum

inductive Answer (ε : Type) where
  | next (found : Next ε)
  | drained (found : Drain (Fault ε) Event)
  | state (count : Nat) (exhausted : Bool)
  | hashSum (sum : Option Nat)
  | hexSum (sum : Option Text)

def answer (s : HashStream ε) : Request → Answer ε × HashStream ε
  | .next => (.next s.next.1, s.next.2)
  | .drain => (.drained s.drain.1, s.drain.2)
  | .state => (.state s.count s.exhausted, s)
  | .hashSum => (.hashSum s.hashSum?, s)
  | .hexSum => (.hexSum s.hexSum?, s)

def run (s : HashStream ε) : List Request → List (Answer ε) × HashStream ε
  | [] => ([], s)
  | r :: rs =>
    let (a, t) := s.answer r
    let (as, u) := run t rs
    (a :: as, u)

namespace Next

/-- The event that is used up, be it handed out or not. -/
def used? : Next ε → Option Event
  | event e => some e
  | surrogate e => some e
  | failed _ => none
  | stop => none

def event? : Next ε → Option Event
  | event e => some e
  | _ => none

def isStop : Next ε → Bool
  | stop => true
  | _ => false

def ofFailure : Option (Fault ε) → Next ε
  | some (.surrogate e) => surrogate e
  | some (.failed cause) => failed cause
  | none => stop

def Sound : Next ε → Prop
  | event e => e.Encodable
  | surrogate e => ¬ e.Encodable
  | failed _ => False
  | stop => True

end Next

namespace Answer

def nexts : Answer ε → List (Next ε)
  | next found => [found]
  | drained found => found.items.map .event ++ [.ofFailure found.failure]
  | _ => []

end Answer

/-- Requests for one event each lead from one stream to the other, and these are found. -/
inductive Nexts : HashStream ε → List (Next ε) → HashStream ε → Prop
  | nil {s : HashStream ε} : Nexts s [] s
  | cons {s t : HashStream ε} {found : List (Next ε)} (rest : Nexts s.next.2 found t) :
      Nexts s (s.next.1 :: found) t

namespace Nexts

variable {s t u : HashStream ε} {found later : List (Next ε)}

theorem single (s : HashStream ε) : Nexts s [s.next.1] s.next.2 := .cons .nil

theorem append (h : Nexts s found t) (hlater : Nexts t later u) : Nexts s (found ++ later) u := by
  induction h with
  | nil => exact hlater
  | cons _ ih => exact .cons (ih hlater)

end Nexts

theorem nexts_drainWithin {fuel : Nat} {s : HashStream ε} (hfuel : s.left.items.length < fuel) :
    Nexts s (Answer.drained (s.drainWithin fuel).1).nexts (s.drainWithin fuel).2 := by
  induction fuel generalizing s with
  | zero => cases hfuel
  | succ fuel ih =>
    have hfirst := Nexts.single s
    rw [drainWithin]
    obtain ⟨⟨items, failure⟩, handed, exhausted⟩ := s
    cases items with
    | nil => cases failure <;> exact hfirst
    | cons e es =>
      by_cases he : e.text.hasSurrogate = true
      · simp only [next, he, if_true] at hfirst ⊢
        exact hfirst
      · simp only [next, he, Bool.false_eq_true, if_false] at hfirst ⊢
        exact hfirst.append (ih (Nat.lt_of_succ_lt_succ hfuel))

theorem nexts_answer (s : HashStream ε) (r : Request) :
    Nexts s (s.answer r).1.nexts (s.answer r).2 := by
  cases r with
  | next => exact .single s
  | drain => exact nexts_drainWithin (Nat.lt_succ_self _)
  | state => exact .nil
  | hashSum => exact .nil
  | hexSum => exact .nil

theorem nexts_run (s : HashStream ε) (requests : List Request) :
    Nexts s ((s.run requests).1.flatMap Answer.nexts) (s.run requests).2 := by
  induction requests generalizing s with
  | nil => exact .nil
  | cons r rs ih => exact (nexts_answer s r).append (ih (s.answer r).2)

structure Step (s : HashStream ε) (a : Next ε) (t : HashStream ε) : Prop where
  used : s.left.items = a.used?.toList ++ t.left.items
  failure : t.left.failure = none
  handed : t.handed = a.event?.toList ++ s.handed
  exhausted : t.exhausted = (s.exhausted || a.isStop)
  sound : a.Sound
  stop : a.isStop = true ↔ s.left.items = []

theorem step_next {s : HashStream ε} (h : s.left.failure = none) : Step s s.next.1 s.next.2 := by
  obtain ⟨⟨items, failure⟩, handed, exhausted⟩ := s
  obtain rfl : failure = none := h
  cases items with
  | nil => exact ⟨rfl, rfl, rfl, (Bool.or_true exhausted).symm, trivial, iff_of_true rfl rfl⟩
  | cons e es =>
    have hgoes : ∀ a : Next ε, a.isStop = false → (a.isStop = true ↔ e :: es = []) :=
      fun a ha => iff_of_false (by simp [ha]) (by simp)
    by_cases he : e.text.hasSurrogate = true
    · simp only [next, he, if_true]
      exact ⟨rfl, rfl, rfl, (Bool.or_false exhausted).symm,
        by simp [Next.Sound, Event.Encodable, he], hgoes _ rfl⟩
    · simp only [next, he, Bool.false_eq_true, if_false]
      exact ⟨rfl, rfl, rfl, (Bool.or_false exhausted).symm,
        by simpa [Next.Sound, Event.Encodable] using he, hgoes _ rfl⟩

/-- How a stream over a list stands when requests for one event each have found this. -/
structure Reached (events : List Event) (found : List (Next ε)) (s : HashStream ε) : Prop where
  used : found.filterMap Next.used? ++ s.left.items = events
  failure : s.left.failure = none
  handed : s.handed.reverse = found.filterMap Next.event?
  exhausted : s.exhausted = found.any Next.isStop
  sound : ∀ a ∈ found, a.Sound
  stop : ∀ before a after, found = before ++ a :: after →
    (a.isStop = true ↔ before.filterMap Next.used? = events)
  nil_of_exhausted : s.exhausted = true → s.left.items = []

variable {events : List Event} {found : List (Next ε)} {s t : HashStream ε} {a : Next ε}

theorem reached_start (events : List Event) :
    Reached events [] (start (.ofList events) : HashStream ε) where
  used := rfl
  failure := rfl
  handed := rfl
  exhausted := rfl
  sound := by simp
  stop := by simp
  nil_of_exhausted := by simp [start]

theorem filterMap_append_singleton {α β : Type} (f : α → Option β) (xs : List α) (x : α) :
    (xs ++ [x]).filterMap f = xs.filterMap f ++ (f x).toList := by
  rw [List.filterMap_append]
  cases h : f x <;> simp [h]

theorem Reached.snoc (h : Reached events found s) (ha : Step s a t) :
    Reached events (found ++ [a]) t where
  used := by
    rw [filterMap_append_singleton, List.append_assoc, ← ha.used, h.used]
  failure := ha.failure
  handed := by
    rw [filterMap_append_singleton, ha.handed, List.reverse_append, h.handed]
    cases a.event? <;> rfl
  exhausted := by simp [ha.exhausted, h.exhausted]
  sound := List.forall_mem_append.2 ⟨h.sound, List.forall_mem_singleton.2 ha.sound⟩
  stop before b after heq := by
    rcases List.eq_nil_or_concat after with rfl | ⟨rest, c, rfl⟩
    · obtain ⟨rfl, hb⟩ := List.append_inj' heq rfl
      obtain rfl := List.singleton_inj.1 hb
      rw [ha.stop, ← h.used, List.self_eq_append_right]
    · have heq : found ++ [a] = (before ++ b :: rest) ++ [c] := by simpa using heq
      exact h.stop before b rest (List.append_inj' heq rfl).1
  nil_of_exhausted ht := by
    rw [ha.exhausted, Bool.or_eq_true, ha.stop] at ht
    have hs : s.left.items = [] := ht.elim h.nil_of_exhausted id
    rw [ha.used] at hs
    exact (List.append_eq_nil_iff.1 hs).2

theorem Reached.nexts {later : List (Next ε)} (h : Reached events found s)
    (hnexts : Nexts s later t) : Reached events (found ++ later) t := by
  induction hnexts generalizing found with
  | nil => rwa [List.append_nil]
  | cons _ ih =>
    have hnext := ih (h.snoc (step_next h.failure))
    rwa [List.append_assoc] at hnext

theorem reached_run (events : List Event) (requests : List Request) :
    Reached events (((start (.ofList events) : HashStream ε).run requests).1.flatMap Answer.nexts)
      ((start (.ofList events)).run requests).2 :=
  (reached_start events).nexts (nexts_run _ requests)

theorem Reached.eq_of_nexts {later : List (Next ε)} (h : Reached events found s)
    (hs : s.exhausted = true) (hnexts : Nexts s later t) : t = s := by
  obtain ⟨⟨items, failure⟩, handed, exhausted⟩ := s
  obtain rfl : failure = none := h.failure
  obtain rfl : items = [] := h.nil_of_exhausted hs
  obtain rfl : exhausted = true := hs
  generalize hstart : (⟨⟨[], none⟩, handed, true⟩ : HashStream ε) = s at hnexts
  induction hnexts with
  | nil => rfl
  | cons _ ih =>
    subst hstart
    exact ih rfl

theorem Reached.exists_parts (h : Reached events found s) : ∃ parts : List (List UInt8),
    (found.filterMap Next.event?).map (fun e => Utf8.encode e.text) = parts.map some ∧
      s.digested = parts.flatten := by
  refine ⟨s.handed.reverse.map fun e => e.bytes?.getD [], ?_, by rw [digested, List.flatMap_def]⟩
  rw [← h.handed, List.map_map]
  refine List.map_congr_left fun e he => ?_
  have hencodable : e.Encodable := by
    rw [h.handed, List.mem_filterMap] at he
    obtain ⟨a, ha, hevent⟩ := he
    have hsound := h.sound a ha
    cases a <;> cases hevent
    exact hsound
  obtain ⟨bytes, hbytes, -⟩ := Utf8.decodeUpToFault_encode hencodable
  simp [Event.bytes?, hbytes]

/-- Whatever a stream over a list was asked for, and in whatever order: the events that were handed
out and those that could not be digested are the first of the list, in its order, and the former are
counted. A request for an event finds nothing left just where all events are used up; from that
request on, and no earlier, the stream counts as exhausted, and nothing can change it any more. The
sums change nothing, are refused before, and then are the MD5 sum of the bytes of all events that
were handed out, one after the other, as a number and in hexadecimal digits. -/
theorem answer_run (events : List Event) (requests : List Request) :
    ∃ (answers : List (Answer ε)) (s : HashStream ε) (found : List (Next ε))
      (parts : List (List UInt8)) (sum : Nat) (digits : Text),
      (start (.ofList events)).run requests = (answers, s) ∧
      found = answers.flatMap Answer.nexts ∧
      found.filterMap Next.used? <+: events ∧ (∀ a ∈ found, a.Sound) ∧
      (∀ before a after, found = before ++ a :: after →
        (a.isStop = true ↔ before.filterMap Next.used? = events)) ∧
      (found.filterMap Next.event?).map (fun e => Utf8.encode e.text) = parts.map some ∧
      sum = BigEndian.toNat (Md5.digest parts.flatten) ∧ Hex.Tells digits sum ∧
      s.answer .state = (.state (found.filterMap Next.event?).length (found.any Next.isStop), s) ∧
      s.answer .hashSum = (.hashSum (if found.any Next.isStop then some sum else none), s) ∧
      s.answer .hexSum = (.hexSum (if found.any Next.isStop then some digits else none), s) ∧
      (found.any Next.isStop = true → ∀ more, (s.run more).2 = s) := by
  have hreached := reached_run (ε := ε) events requests
  generalize hrun : (start (.ofList events) : HashStream ε).run requests = result at hreached
  obtain ⟨answers, s⟩ := result
  simp only at hreached
  obtain ⟨parts, hparts, hdigested⟩ := hreached.exists_parts
  have hcount : s.count = ((answers.flatMap Answer.nexts).filterMap Next.event?).length := by
    rw [← hreached.handed, List.length_reverse, count]
  have hsum : s.hashSum? = if (answers.flatMap Answer.nexts).any Next.isStop then
      some (BigEndian.toNat (Md5.digest parts.flatten)) else none := by
    rw [hashSum?, hreached.exhausted, hdigested]
  refine ⟨answers, s, _, parts, _, _, rfl, rfl, ⟨_, hreached.used⟩, hreached.sound, hreached.stop,
    hparts, rfl, Hex.tells_ofNat _, ?_, ?_, ?_, fun hstop more => ?_⟩
  · rw [answer, hcount, hreached.exhausted]
  · rw [answer, hsum]
  · rw [answer, hexSum?, hsum]
    split <;> rfl
  · exact hreached.eq_of_nexts (hreached.exhausted.trans hstop) (nexts_run s more)

/-- The last event does not exhaust the events, only the request that finds none behind it. -/
example : ((start (.ofList [⟨"A", .plain ["x"]⟩]) : HashStream Empty).run
    [.next, .state, .next, .state]).1 =
      [.next (.event ⟨"A", .plain ["x"]⟩), .state 1 false, .next .stop, .state 1 true] := rfl

end MaxEnt.HashStream
