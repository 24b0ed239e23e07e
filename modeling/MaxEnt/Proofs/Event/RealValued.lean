import MaxEnt.Proofs.Event.File
import MaxEnt.Proofs.Except
import MaxEnt.Proofs.Numeral.Real

namespace MaxEnt

namespace Text

def Undivided (t : Text) : Prop := ∀ c ∈ t, c.isBlank = false

instance (t : Text) : Decidable (Undivided t) :=
  decidable_of_iff (t.all (!·.isBlank)) (by simp [Undivided])

end Text

namespace Numeral

theorem undivided_ofReal (x : Binary64) : (ofReal x).Undivided := by
  have hsigns : signs.Undivided := by decide
  intro c hc
  obtain hc | hc := mem_ofReal hc
  · simp only [CodePoint.isBlank, Bool.or_eq_false_iff, Bool.and_eq_false_imp, decide_eq_true_eq,
      decide_eq_false_iff_not, beq_eq_false_iff_ne]
    omega
  · exact hsigns c hc

theorem equals_not_mem_ofReal (x : Binary64) : ↑ '=' ∉ ofReal x := by
  intro h
  obtain h | h := mem_ofReal h
  · exact absurd h (by decide)
  · exact absurd h (by decide)

end Numeral

namespace Drain

variable {ε α β : Type}

theorem mem_of_mem_ofResults {rs : List (Except ε α)} {x : α} (h : x ∈ (ofResults rs).items) :
    .ok x ∈ rs := by
  induction rs with
  | nil => cases h
  | cons r rs ih =>
    cases r with
    | error e => cases h
    | ok y =>
      obtain rfl | h := List.mem_cons.1 h
      · exact List.mem_cons_self
      · exact List.mem_cons_of_mem _ (ih h)

theorem exists_of_mem_andThen {d : Drain ε α} {f : α → Except ε β} {y : β}
    (h : y ∈ (d.andThen f).items) : ∃ x ∈ d.items, f x = .ok y :=
  List.mem_map.1 (mem_of_mem_ofResults h)

end Drain

namespace Event

/-- Between blanks the outcome and the predicates with their values can be told apart: no blank
divides them, and the outcome, which has nothing behind it, is not empty. -/
def Legible (e : Event) : Prop := e.outcome.IsWord ∧ ∀ name ∈ e.context, name.Undivided

instance (e : Event) : Decidable e.Legible := inferInstanceAs (Decidable (_ ∧ _))

def Numeric (e : Event) : Prop :=
  ∃ values, e.values = some values ∧ ∀ x ∈ values, x.isNaN = false

instance (e : Event) : Decidable e.Numeric :=
  decidable_of_iff (e.values.any (·.all (!·.isNaN)) = true) (by
    unfold Numeric
    cases e.values <;> simp)

section Pairs

variable {pair : Text × Binary64} {pairs : List (Text × Binary64)} {feature : Text}

theorem pairText_eq (pair : Text × Binary64) :
    pairText pair = pair.1 ++ ↑ '=' :: Numeral.ofReal pair.2 := by
  simp only [pairText, Text.concat, List.flatten_cons, List.flatten_nil, List.append_nil]
  rfl

theorem isWord_pairText (h : pair.1.Undivided) : (pairText pair).IsWord := by
  rw [pairText_eq]
  refine ⟨by simp, List.forall_mem_append.2 ⟨h, List.forall_mem_cons.2 ⟨by decide, ?_⟩⟩⟩
  exact Numeral.undivided_ofReal pair.2

/-- The value has no equals sign, so that the last one stands behind the name, whatever that is. -/
theorem pairOf_pairText (h : pair.2.isNaN = false) : pairOf (pairText pair) = .ok pair := by
  have hreal : Numeral.real? (Numeral.ofReal pair.2) = some pair.2 := by
    rw [Numeral.real?_ofReal, Binary64.canonical, h]
    rfl
  rw [pairOf, pairText_eq, Text.splitLast_append (Numeral.equals_not_mem_ofReal pair.2)]
  simp only [hreal]

theorem mapM_pairOf (h : ∀ pair ∈ pairs, pair.2.isNaN = false) :
    (pairs.map pairText).mapM pairOf = .ok pairs := by
  induction pairs with
  | nil => rfl
  | cons pair pairs ih =>
    obtain ⟨hpair, hpairs⟩ := List.forall_mem_cons.1 h
    rw [List.map_cons, List.mapM_cons, pairOf_pairText hpair, ih hpairs]
    rfl

theorem subset_of_pairOf (h : pairOf feature = .ok pair) : pair.1 ⊆ feature := by
  rw [pairOf] at h
  cases hsplit : Text.splitLast '=' feature with
  | none =>
    rw [hsplit] at h
    cases h
    exact List.Subset.refl _
  | some parts =>
    obtain ⟨name, value⟩ := parts
    have hparts := Text.eq_append_of_splitLast hsplit
    rw [hsplit] at h
    cases hreal : Numeral.real? value with
    | none => simp [hreal] at h
    | some x =>
      obtain rfl : (name, x) = pair := by simpa [hreal] using h
      rw [hparts]
      exact List.subset_append_left _ _

end Pairs

variable {e : Event} {values : List Binary64}

theorem exists_pairs_of_values (h : e.values = some values) :
    ∃ pairs, e.features = .valued pairs ∧ pairs.map Prod.snd = values := by
  obtain ⟨outcome, features⟩ := e
  cases features with
  | plain names => cases h
  | valued pairs => exact ⟨pairs, rfl, Option.some.inj h⟩

theorem isWord_of_legible (h : e.values = some values) (hlegible : e.Legible) :
    ∀ t ∈ e.outcome :: e.featureTexts, t.IsWord := by
  obtain ⟨outcome, features⟩ := e
  obtain ⟨pairs, rfl, -⟩ := exists_pairs_of_values h
  obtain ⟨houtcome, hnames⟩ := hlegible
  refine List.forall_mem_cons.2 ⟨houtcome, List.forall_mem_map.2 fun pair hpair => ?_⟩
  exact isWord_pairText (hnames pair.1 (List.mem_map_of_mem hpair))

theorem ofLine_line (h : e.values = some values) (hnumbers : ∀ x ∈ values, x.isNaN = false)
    (hlegible : e.Legible) : ofLine true e.line = .ok e := by
  have hwords : Text.words e.line = e.outcome :: e.featureTexts :=
    Text.words_intercalate (isWord_of_legible h hlegible)
  obtain ⟨outcome, features⟩ := e
  obtain ⟨pairs, rfl, rfl⟩ := exists_pairs_of_values h
  have hpairs : (pairs.map pairText).mapM pairOf = .ok pairs :=
    mapM_pairOf fun pair hpair => hnumbers pair.2 (List.mem_map_of_mem hpair)
  rw [ofLine, hwords]
  simp only [featureTexts, hpairs, if_true]
  rfl

theorem exists_pairs_of_ofLine {line : Text} (h : ofLine true line = .ok e) :
    ∃ outcome features pairs, Text.words line = outcome :: features ∧
      features.map pairOf = pairs.map .ok ∧ e = ⟨outcome, .valued pairs⟩ := by
  rw [ofLine] at h
  cases hwords : Text.words line with
  | nil =>
    rw [hwords] at h
    cases h
  | cons outcome features =>
    rw [hwords] at h
    obtain ⟨pairs, hpairs, rfl⟩ := Except.map_eq_ok h
    exact ⟨outcome, features, pairs, rfl, Except.mapM_eq_ok_iff.1 hpairs, rfl⟩

theorem mem_words_of_ofLine {line : Text} (h : ofLine true line = .ok e) :
    e.outcome ∈ Text.words line ∧ ∀ name ∈ e.context, ∃ w ∈ Text.words line, name ⊆ w := by
  obtain ⟨outcome, features, pairs, hwords, hpairs, rfl⟩ := exists_pairs_of_ofLine h
  rw [hwords]
  refine ⟨List.mem_cons_self, List.forall_mem_map.2 fun pair hpair => ?_⟩
  have hmem : Except.ok pair ∈ features.map pairOf := by
    rw [hpairs]
    exact List.mem_map_of_mem hpair
  obtain ⟨feature, hfeature, hread⟩ := List.mem_map.1 hmem
  exact ⟨feature, List.mem_cons_of_mem _ hfeature, subset_of_pairOf hread⟩

theorem legible_of_ofLine {line : Text} (h : ofLine true line = .ok e) : e.Legible := by
  obtain ⟨houtcome, hnames⟩ := mem_words_of_ofLine h
  refine ⟨Text.isWord_of_mem_words houtcome, fun name hname => ?_⟩
  obtain ⟨w, hw, hsubset⟩ := hnames name hname
  exact fun c hc => (Text.isWord_of_mem_words hw).2 c (hsubset hc)

theorem hasSurrogate_pairText {pair : Text × Binary64} (h : pair.1.hasSurrogate = false) :
    (pairText pair).hasSurrogate = false := by
  have hvalue := (Numeral.ascii_ofReal pair.2).hasSurrogate
  simp only [Text.hasSurrogate] at h hvalue ⊢
  rw [pairText_eq, List.any_append, List.any_cons, h, hvalue]
  decide

theorem hasSurrogate_line (h : e.EveryText fun t => t.hasSurrogate = false) :
    e.line.hasSurrogate = false := by
  have htexts : ∀ t ∈ e.outcome :: e.featureTexts, t.hasSurrogate = false := by
    obtain ⟨outcome, features⟩ := e
    cases features with
    | plain names => exact List.forall_mem_cons.2 h
    | valued pairs =>
      refine List.forall_mem_cons.2 ⟨h.1, List.forall_mem_map.2 fun pair hpair => ?_⟩
      exact hasSurrogate_pairText (h.2 pair.1 (List.mem_map_of_mem hpair))
  simp only [Text.hasSurrogate, List.any_eq_false] at htexts ⊢
  exact Text.forall_mem_intercalate (List.forall_mem_singleton.2 (by decide)) htexts

end Event

namespace EventFile

variable {events : List Event}

theorem exists_write (h : ∀ e ∈ events, e.EveryText fun t => t.hasSurrogate = false) :
    ∃ bytes, write events = some bytes := by
  have hsurrogate : (text events).hasSurrogate = false := by
    rw [text_eq_ended]
    exact Text.hasSurrogate_ended (List.forall_mem_map.2 fun e he => Event.hasSurrogate_line (h e he))
  obtain ⟨bytes, hbytes, -⟩ := Utf8.decodeUpToFault_encode hsurrogate
  exact ⟨bytes, hbytes⟩

theorem exists_line_of_mem_read {realValued : Bool} {bytes : List UInt8} {e : Event}
    (h : e ∈ (read realValued bytes).items) : ∃ line ∈ (Lines.ofBytes bytes).read,
      line.isBlank = false ∧ Event.ofLine realValued line = .ok e := by
  obtain ⟨line, hmem, hline⟩ := Drain.exists_of_mem_andThen h
  obtain ⟨hread, hfilled⟩ := List.mem_filter.1 hmem
  exact ⟨line, hread, by simpa using hfilled, Except.mapError_eq_ok hline⟩

theorem legible_of_mem_read {bytes : List UInt8} {e : Event} (h : e ∈ (read true bytes).items) :
    e.Legible := by
  obtain ⟨line, -, -, htold⟩ := exists_line_of_mem_read h
  exact Event.legible_of_ofLine htold

theorem read_of_legible {bytes : List UInt8} (hbytes : write events = some bytes)
    (hnumeric : ∀ e ∈ events, e.Numeric)
    (hlegible : ∀ e ∈ events, e.Legible) : read true bytes = .ofList events := by
  have hwords : ∀ e ∈ events, ∀ t ∈ e.outcome :: e.featureTexts, t.IsWord := by
    intro e he
    obtain ⟨values, hv, -⟩ := hnumeric e he
    exact Event.isWord_of_legible hv (hlegible e he)
  have htold : ∀ e ∈ events, (Event.ofLine true e.line).mapError .event =
      (.ok e : Except CorpusError Event) := by
    intro e he
    obtain ⟨values, hv, hnumbers⟩ := hnumeric e he
    rw [Event.ofLine_line hv hnumbers (hlegible e he)]
    rfl
  rw [read_eq_andThen hbytes, filled_pieces_text hwords, Drain.andThen, Drain.ofList, List.map_map]
  simp only [Function.comp_def]
  rw [List.map_congr_left htold, Drain.ofResults_of_ok, List.map_id']
  rfl

/-- Events with values that are numbers and with texts that UTF-8 can hold are written. What is read
from the file are these events if and only if no outcome is empty and no outcome and no predicate
holds a blank, and never these events with a failure behind them. -/
theorem read_written_valued
    (hnumeric : ∀ e ∈ events, e.Numeric)
    (hencodable : ∀ e ∈ events, e.EveryText fun t => t.hasSurrogate = false) :
    ∃ bytes, write events = some bytes ∧
      (read true bytes = .ofList events ↔
        ∀ e ∈ events, e.outcome.IsWord ∧ ∀ name ∈ e.context, name.Undivided) ∧
      ((read true bytes).items = events → (read true bytes).failure = none) := by
  obtain ⟨bytes, hbytes⟩ := exists_write hencodable
  have hlegible : (read true bytes).items = events → ∀ e ∈ events, e.Legible := by
    intro hsame e he
    rw [← hsame] at he
    exact legible_of_mem_read he
  refine ⟨bytes, hbytes, ⟨fun hread => ?_, read_of_legible hbytes hnumeric⟩, fun hsame => ?_⟩
  · apply hlegible
    rw [hread]
    rfl
  · rw [read_of_legible hbytes hnumeric (hlegible hsame)]
    rfl

/-- Events without predicates, with names that are empty, end in an equals sign, look like a name
with a value and come twice, and with an infinite value, the least one and a zero below zero. -/
def oddPairs : List Event :=
  [⟨"A", .valued []⟩,
    ⟨"=", .valued [([], .infinity true), ("b=1.0", .ofMagnitude false 1), ("b=1.0", .one),
      ("c=", .ofMagnitude true 0), ([0x1F600], .zero)]⟩]

def dividedPairs : List Event :=
  [⟨[], .valued [("a", .one)]⟩, ⟨"A B", .valued []⟩, ⟨"A", .valued [([97, 0x2003], .one)]⟩,
    ⟨"A", .valued [([0x1C, 97], .zero)]⟩]

theorem read_written_valued_oddPairs :
    ((∀ e ∈ oddPairs, e.Numeric) ∧
      (∀ e ∈ oddPairs, e.EveryText fun t => t.hasSurrogate = false) ∧
      ∃ bytes, write oddPairs = some bytes ∧ read true bytes = .ofList oddPairs) ∧
    ∀ d ∈ dividedPairs, (∀ e ∈ [d], e.Numeric) ∧
      (∀ e ∈ [d], e.EveryText fun t => t.hasSurrogate = false) ∧
      ∃ bytes, write [d] = some bytes ∧ read true bytes ≠ .ofList [d] := by
  have hnumeric : ∀ e ∈ oddPairs, e.Numeric := by decide
  have hencodable : ∀ e ∈ oddPairs, e.EveryText fun t => t.hasSurrogate = false := by decide
  have hdnumeric : ∀ d ∈ dividedPairs, ∀ e ∈ [d], e.Numeric := by decide
  have hdencodable :
      ∀ d ∈ dividedPairs, ∀ e ∈ [d], e.EveryText fun t => t.hasSurrogate = false := by
    decide
  have hdivided : ∀ d ∈ dividedPairs, ¬ ∀ e ∈ [d], e.Legible := by decide
  refine ⟨⟨hnumeric, hencodable, ?_⟩, fun d hd => ⟨hdnumeric d hd, hdencodable d hd, ?_⟩⟩
  · obtain ⟨bytes, hbytes, hiff, -⟩ := read_written_valued hnumeric hencodable
    have hlegible : ∀ e ∈ oddPairs, e.Legible := by decide
    exact ⟨bytes, hbytes, hiff.2 hlegible⟩
  · obtain ⟨bytes, hbytes, hiff, -⟩ := read_written_valued (hdnumeric d hd) (hdencodable d hd)
    exact ⟨bytes, hbytes, fun hread => hdivided d hd (hiff.1 hread)⟩

end EventFile

end MaxEnt
