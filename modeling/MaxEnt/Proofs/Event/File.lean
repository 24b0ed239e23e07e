import MaxEnt.Event.File
import MaxEnt.Proofs.Text.Newlines

namespace MaxEnt

namespace Drain

variable {ε α β : Type}

theorem ofResults_of_ok (g : α → β) (xs : List α) :
    ofResults (xs.map fun x => (.ok (g x) : Except ε β)) = .ofList (xs.map g) := by
  induction xs with
  | nil => rfl
  | cons x xs ih =>
    rw [List.map_cons, ofResults, ih]
    rfl

theorem andThen_of_ok {d : Drain ε α} {f : α → Except ε β} {g : α → β}
    (h : ∀ x ∈ d.items, f x = .ok (g x)) : d.andThen f = ⟨d.items.map g, d.failure⟩ := by
  rw [andThen, List.map_congr_left h, ofResults_of_ok]
  rfl

end Drain

namespace Event

/-- What a property of texts says of the outcome and all predicates. -/
def EveryText (P : Text → Prop) (e : Event) : Prop := P e.outcome ∧ ∀ name ∈ e.context, P name

instance (P : Text → Prop) [DecidablePred P] (e : Event) : Decidable (e.EveryText P) :=
  inferInstanceAs (Decidable (_ ∧ _))

/-- The event that words tell: the first is the outcome, the others are predicates without values. -/
def ofWords (ws : List Text) : Event := ⟨ws.headD [], .plain ws.tail⟩

variable {e : Event} {P : Text → Prop}

theorem everyText_iff : e.EveryText P ↔ ∀ t ∈ e.outcome :: e.context, P t :=
  List.forall_mem_cons.symm

theorem features_of_values (h : e.values = none) : e.features = .plain e.context := by
  obtain ⟨outcome, features⟩ := e
  cases features with
  | plain names => rfl
  | valued pairs => cases h

theorem ofWords_of_values (h : e.values = none) : ofWords (e.outcome :: e.context) = e := by
  have hfeatures := features_of_values h
  obtain ⟨outcome, features⟩ := e
  exact congrArg (Event.mk outcome) hfeatures.symm

theorem featureTexts_of_values (h : e.values = none) : e.featureTexts = e.context := by
  rw [featureTexts, features_of_values h]

theorem forall_mem_line {Q : CodePoint → Prop} (hblank : Q ↑ ' ') (h : e.values = none)
    (htexts : e.EveryText fun t => ∀ c ∈ t, Q c) : ∀ c ∈ e.line, Q c := by
  apply Text.forall_mem_intercalate (List.forall_mem_singleton.2 hblank)
  rw [featureTexts_of_values h]
  exact everyText_iff.1 htexts

theorem words_line (hwords : ∀ t ∈ e.outcome :: e.featureTexts, t.IsWord) :
    Text.words e.line = e.outcome :: e.featureTexts :=
  Text.words_intercalate hwords

theorem everyText_ofWords {t : Text} (h : t.isBlank = false) :
    (ofWords (Text.words t)).EveryText Text.IsWord := by
  have hwords : ∀ w ∈ Text.words t, w.IsWord := fun _ => Text.isWord_of_mem_words
  cases hw : Text.words t with
  | nil => rw [Text.words_eq_nil_iff.1 hw] at h; cases h
  | cons w ws => rwa [hw, List.forall_mem_cons] at hwords

theorem ofLine_false {t : Text} (h : t.isBlank = false) :
    ofLine false t = .ok (ofWords (Text.words t)) := by
  rw [ofLine]
  cases hw : Text.words t with
  | nil => rw [Text.words_eq_nil_iff.1 hw] at h; cases h
  | cons w ws => rfl

end Event

namespace EventFile

variable {events : List Event}

theorem text_eq_ended (events : List Event) : text events = Text.ended (events.map Event.line) := by
  rw [text, Text.ended, List.flatMap_map]

theorem read_eq_andThen {t : Text} {bytes : List UInt8} (h : Utf8.encode t = some bytes)
    (realValued : Bool) : read realValued bytes =
      (Drain.ofList (Text.filled t.pieces)).andThen fun piece =>
        (Event.ofLine realValued piece).mapError .event := by
  rw [read, Lines.ofBytes_of_encode h, ← Text.filled_lines_unifyNewlines]
  rfl

theorem read_false {t : Text} {bytes : List UInt8} (h : Utf8.encode t = some bytes) :
    read false bytes = .ofList ((Text.filled t.pieces).map fun piece => .ofWords piece.words) := by
  rw [read_eq_andThen h]
  refine Drain.andThen_of_ok fun piece hpiece => ?_
  have hfilled : piece.isBlank = false := by simpa using (List.mem_filter.1 hpiece).2
  rw [Event.ofLine_false hfilled]
  rfl

theorem filled_pieces_text (hwords : ∀ e ∈ events, ∀ t ∈ e.outcome :: e.featureTexts, t.IsWord) :
    Text.filled (text events).pieces = events.map Event.line := by
  have hblank : ∀ c ∈ [CodePoint.ofChar ' '], PlainText.isLineBreak c = false :=
    List.forall_mem_singleton.2 (by decide)
  have hlines : ∀ l ∈ events.map Event.line, ∀ c ∈ l, PlainText.isLineBreak c = false :=
    List.forall_mem_map.2 fun e he =>
      Text.forall_mem_intercalate hblank fun t ht => Text.unbroken_of_isWord (hwords e he t ht)
  have hline : ∀ l ∈ events.map Event.line, (!l.isBlank) = true := by
    refine List.forall_mem_map.2 fun e he => ?_
    have hmem : e.outcome ∈ Text.words e.line := by
      rw [Event.words_line (hwords e he)]
      exact List.mem_cons_self
    rw [Text.isBlank_eq_false_of_words hmem]
    rfl
  rw [text_eq_ended, Text.pieces_ended hlines, Text.filled, List.filter_append,
    List.filter_eq_self.2 hline]
  exact List.append_nil _

theorem map_ofWords_pieces (hplain : ∀ e ∈ events, e.values = none)
    (hwords : ∀ e ∈ events, e.EveryText Text.IsWord) :
    ((Text.filled (text events).pieces).map fun piece => Event.ofWords piece.words) = events := by
  have htexts : ∀ e ∈ events, ∀ t ∈ e.outcome :: e.featureTexts, t.IsWord := by
    intro e he
    rw [Event.featureTexts_of_values (hplain e he)]
    exact Event.everyText_iff.1 (hwords e he)
  have htold : ∀ e ∈ events, Event.ofWords e.line.words = e := by
    intro e he
    rw [Event.words_line (htexts e he), Event.featureTexts_of_values (hplain e he),
      Event.ofWords_of_values (hplain e he)]
  rw [filled_pieces_text htexts, List.map_map]
  exact (List.map_congr_left htold).trans (List.map_id' events)

/-- Events without values that UTF-8 can hold are written, and reading the file does not fail,
whatever their texts are: it tells an event for each piece between the line breaks that is not
blank. These are the events that were written if and only if no outcome and no predicate is empty
or holds a blank; no event makes up for another. -/
theorem read_written (hplain : ∀ e ∈ events, e.values = none)
    (hencodable : ∀ e ∈ events, e.EveryText fun t => t.hasSurrogate = false) :
    ∃ bytes found, write events = some bytes ∧ read false bytes = .ofList found ∧
      found = ((text events).pieces.filter (!·.isBlank)).map (fun piece => .ofWords piece.words) ∧
      (found = events ↔ ∀ e ∈ events, e.EveryText Text.IsWord) := by
  have hsurrogate : (text events).hasSurrogate = false := by
    rw [text_eq_ended]
    refine Text.hasSurrogate_ended (List.forall_mem_map.2 fun e he => ?_)
    have htexts := hencodable e he
    simp only [Text.hasSurrogate, List.any_eq_false] at htexts ⊢
    exact Event.forall_mem_line (by decide) (hplain e he) htexts
  obtain ⟨bytes, hbytes, -⟩ := Utf8.decodeUpToFault_encode hsurrogate
  refine ⟨bytes, _, hbytes, read_false hbytes, rfl, fun hsame e he => ?_, map_ofWords_pieces hplain⟩
  rw [← hsame] at he
  obtain ⟨piece, hpiece, rfl⟩ := List.mem_map.1 he
  exact Event.everyText_ofWords (by simpa using (List.mem_filter.1 hpiece).2)

def neatEvents : List Event :=
  [⟨"A", .plain []⟩, ⟨"=", .plain ["b=1", "b=1", [0x1F600]]⟩, ⟨[0], .plain ["]"]⟩]

/-- Events with a blank inside a predicate, which is not in ASCII or not printed and ends no line. -/
def dividedEvents : List Event :=
  [0x1C, 0x1D, 0x1E, 0x1F, 0x85, 0xA0, 0x2028].map fun c => ⟨"A", .plain [[97, c, 98]]⟩

theorem read_written_neatEvents :
    ((∀ e ∈ neatEvents, e.values = none) ∧
      (∀ e ∈ neatEvents, e.EveryText fun t => t.hasSurrogate = false) ∧
      ∃ bytes, write neatEvents = some bytes ∧ read false bytes = .ofList neatEvents) ∧
    ∀ d ∈ dividedEvents, (∀ e ∈ [d], e.values = none) ∧
      (∀ e ∈ [d], e.EveryText fun t => t.hasSurrogate = false) ∧
      ∃ bytes found, write [d] = some bytes ∧ read false bytes = .ofList found ∧ found ≠ [d] := by
  have hplain : ∀ e ∈ neatEvents, e.values = none := by decide
  have hencodable : ∀ e ∈ neatEvents, e.EveryText fun t => t.hasSurrogate = false := by decide
  have hdplain : ∀ d ∈ dividedEvents, ∀ e ∈ [d], e.values = none := by decide
  have hdencodable :
      ∀ d ∈ dividedEvents, ∀ e ∈ [d], e.EveryText fun t => t.hasSurrogate = false := by
    decide
  have hdivided : ∀ d ∈ dividedEvents, ¬ ∀ e ∈ [d], e.EveryText Text.IsWord := by decide
  refine ⟨⟨hplain, hencodable, ?_⟩, fun d hd => ⟨hdplain d hd, hdencodable d hd, ?_⟩⟩
  · obtain ⟨bytes, found, hbytes, hread, -, hiff⟩ := read_written hplain hencodable
    obtain rfl : found = neatEvents := hiff.2 (by decide)
    exact ⟨bytes, hbytes, hread⟩
  · obtain ⟨bytes, found, hbytes, hread, -, hiff⟩ := read_written (hdplain d hd) (hdencodable d hd)
    exact ⟨bytes, found, hbytes, hread, fun hsame => hdivided d hd (hiff.1 hsame)⟩

end EventFile

end MaxEnt
