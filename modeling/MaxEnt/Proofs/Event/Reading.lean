import MaxEnt.Proofs.Event.RealValued
import MaxEnt.Proofs.Except
import MaxEnt.Proofs.Text.Newlines

namespace MaxEnt

namespace Drain

variable {ε α β : Type}

theorem ofResults_cases (rs : List (Except ε α)) :
    (∃ xs, rs = xs.map .ok ∧ ofResults rs = ⟨xs, none⟩) ∨
      ∃ xs e after, rs = xs.map .ok ++ .error e :: after ∧ ofResults rs = ⟨xs, some e⟩ := by
  induction rs with
  | nil => exact .inl ⟨[], rfl, rfl⟩
  | cons r rs ih =>
    cases r with
    | error e => exact .inr ⟨[], e, rs, rfl, rfl⟩
    | ok x =>
      rcases ih with ⟨xs, rfl, hxs⟩ | ⟨xs, e, after, rfl, hxs⟩
      · exact .inl ⟨x :: xs, rfl, by rw [ofResults, hxs]⟩
      · exact .inr ⟨x :: xs, e, after, rfl, by rw [ofResults, hxs]⟩

theorem andThen_ofList_cases (xs : List α) (f : α → Except ε β) :
    ∃ told rest, xs = told ++ rest ∧ told.map f = ((ofList xs).andThen f).items.map .ok ∧
      (rest = [] ∧ ((ofList xs).andThen f).failure = none ∨
        ∃ x after e, rest = x :: after ∧ f x = .error e ∧
          ((ofList xs).andThen f).failure = some e) := by
  rcases ofResults_cases (xs.map f) with ⟨ys, hys, hresults⟩ | ⟨ys, e, after, hys, hresults⟩
  · refine ⟨xs, [], (List.append_nil xs).symm, ?_, .inl ⟨rfl, ?_⟩⟩
    · rw [andThen, ofList, hresults, hys]
    · rw [andThen, ofList, hresults]
      rfl
  · obtain ⟨told, rest, rfl, htold, hrest⟩ := List.map_eq_append_iff.1 hys
    obtain ⟨x, after, rfl, hx, -⟩ := List.map_eq_cons_iff.1 hrest
    refine ⟨told, x :: after, rfl, ?_, .inr ⟨x, after, e, rfl, hx, ?_⟩⟩
    · rw [andThen, ofList, hresults, htold]
    · rw [andThen, ofList, hresults]
      rfl

end Drain

namespace Event

/-- A predicate with an equals sign, behind the last of which no number stands. -/
def Unreadable (feature : Text) : Prop :=
  ∃ name value : Text, feature = name ++ ↑ '=' :: value ∧ ↑ '=' ∉ value ∧
    Numeral.real? value = none

theorem pairOf_eq_error_iff {feature : Text} {cause : EventError} :
    pairOf feature = .error cause ↔ Unreadable feature ∧ cause = .invalidValue feature := by
  constructor
  · intro h
    rw [pairOf] at h
    cases hsplit : Text.splitLast '=' feature with
    | none =>
      rw [hsplit] at h
      cases h
    | some parts =>
      obtain ⟨name, value⟩ := parts
      rw [hsplit] at h
      cases hreal : Numeral.real? value with
      | some x => simp [hreal] at h
      | none =>
        obtain rfl : EventError.invalidValue feature = cause := by simpa [hreal] using h
        have hparts := Text.eq_append_of_splitLast hsplit
        exact ⟨⟨name, value, hparts, Text.not_mem_of_splitLast hsplit, hreal⟩, rfl⟩
  · rintro ⟨⟨name, value, rfl, hequals, hreal⟩, rfl⟩
    rw [pairOf, Text.splitLast_append hequals]
    simp only [hreal]

theorem exists_pairOf_iff {feature : Text} : (∃ pair, pairOf feature = .ok pair) ↔ ¬ Unreadable feature := by
  cases h : pairOf feature with
  | ok pair =>
    refine iff_of_true ⟨pair, rfl⟩ fun hbad => ?_
    rw [pairOf_eq_error_iff.2 ⟨hbad, rfl⟩] at h
    cases h
  | error cause => simpa using (pairOf_eq_error_iff.1 h).1

def FirstUnreadable (line feature : Text) : Prop :=
  ∃ before after, line.words.tail = before ++ feature :: after ∧ Unreadable feature ∧
    ∀ f ∈ before, ¬ Unreadable f

variable {realValued : Bool} {line : Text}

/-- A line that is not blank fails to tell a real-valued event for the first of its predicates whose
value is no number, and for nothing else. -/
theorem ofLine_eq_error_iff {cause : EventError} (h : line.isBlank = false) :
    ofLine realValued line = .error cause ↔
      realValued = true ∧ ∃ feature, FirstUnreadable line feature ∧ cause = .invalidValue feature := by
  cases realValued with
  | false =>
    rw [ofLine_false h]
    simp
  | true =>
    rw [ofLine]
    cases hwords : Text.words line with
    | nil =>
      rw [Text.words_eq_nil_iff.1 hwords] at h
      cases h
    | cons outcome features =>
      have hmap : (features.mapM pairOf).map (fun pairs => (⟨outcome, .valued pairs⟩ : Event)) =
          .error cause ↔ features.mapM pairOf = .error cause := by
        cases features.mapM pairOf <;> simp [Except.map]
      simp only [if_true, true_and, hmap, Except.mapM_eq_error_iff, exists_pairOf_iff,
        pairOf_eq_error_iff, FirstUnreadable, hwords, List.tail_cons]
      constructor
      · rintro ⟨before, feature, after, hsplit, ⟨hbad, hcause⟩, hbefore⟩
        exact ⟨feature, ⟨before, after, hsplit, hbad, hbefore⟩, hcause⟩
      · rintro ⟨feature, ⟨before, after, hsplit, hbad, hbefore⟩, hcause⟩
        exact ⟨before, feature, after, hsplit, ⟨hbad, hcause⟩, hbefore⟩

theorem not_unreadable_of_ofLine {e : Event} (h : ofLine true line = .ok e) :
    ∀ feature ∈ line.words.tail, ¬ Unreadable feature := by
  obtain ⟨outcome, features, pairs, hwords, hpairs, -⟩ := exists_pairs_of_ofLine h
  intro feature hfeature
  rw [hwords, List.tail_cons] at hfeature
  exact exists_pairOf_iff.1 (Except.exists_of_map_eq_map_ok hpairs hfeature)

theorem everyText_subset_of_ofLine {e : Event} (h : ofLine realValued line = .ok e) :
    e.EveryText (· ⊆ line) := by
  have hwords : ∀ w ∈ Text.words line, w ⊆ line := fun w => Text.subset_of_mem_words
  cases realValued with
  | false =>
    rw [ofLine] at h
    cases hline : Text.words line with
    | nil =>
      rw [hline] at h
      cases h
    | cons outcome features =>
      rw [hline] at h hwords
      obtain rfl : ⟨outcome, .plain features⟩ = e := by simpa using h
      exact List.forall_mem_cons.1 hwords
  | true =>
    obtain ⟨houtcome, hnames⟩ := mem_words_of_ofLine h
    refine ⟨hwords _ houtcome, fun name hname => ?_⟩
    obtain ⟨w, hw, hsubset⟩ := hnames name hname
    exact List.Subset.trans hsubset (hwords w hw)

end Event

namespace EventFile

variable {t : Text} {bytes : List UInt8}

theorem read_of_inLines {ls : List Text} (hbytes : Utf8.encode t = some bytes) (h : t.InLines ls)
    (realValued : Bool) : read realValued bytes = (Drain.ofList (Text.filled ls)).andThen fun line =>
      (Event.ofLine realValued line).mapError .event := by
  rw [read, Lines.ofBytes_of_inLines hbytes h]
  rfl

theorem exists_write_read (h : Utf8.encode t = some bytes) (realValued : Bool) :
    ∃ again, write (read realValued bytes).items = some again := by
  obtain ⟨ls, hls⟩ := t.exists_inLines
  apply exists_write
  intro e he
  obtain ⟨line, hline, -, htold⟩ := exists_line_of_mem_read he
  rw [Lines.ofBytes_of_inLines h hls] at hline
  have hencodable : ∀ u : Text, u ⊆ line → u.hasSurrogate = false := fun u hu =>
    Text.hasSurrogate_of_subset (List.Subset.trans hu (hls.subset hline))
      (Utf8.hasSurrogate_of_encode h)
  obtain ⟨houtcome, hnames⟩ := Event.everyText_subset_of_ofLine htold
  exact ⟨hencodable _ houtcome, fun name hname => hencodable name (hnames name hname)⟩

theorem read_again_plain {again : List UInt8}
    (h : write (read false bytes).items = some again) :
    read false again = .ofList (read false bytes).items := by
  have htold : ∀ e ∈ (read false bytes).items, e.values = none ∧ e.EveryText Text.IsWord := by
    intro e he
    obtain ⟨line, -, hfilled, hline⟩ := exists_line_of_mem_read he
    obtain rfl := Except.ok.inj ((Event.ofLine_false hfilled).symm.trans hline)
    exact ⟨rfl, Event.everyText_ofWords hfilled⟩
  rw [read_false h, map_ofWords_pieces (fun e he => (htold e he).1) fun e he => (htold e he).2]

theorem read_again_valued {again : List UInt8}
    (hnumbers : ∀ e ∈ (read true bytes).items, ∀ x ∈ e.values.getD [], x.isNaN = false)
    (h : write (read true bytes).items = some again) :
    read true again = .ofList (read true bytes).items := by
  refine read_of_legible h (fun e he => ?_) fun e he => legible_of_mem_read he
  obtain ⟨line, -, -, hline⟩ := exists_line_of_mem_read he
  obtain ⟨outcome, features, pairs, -, -, rfl⟩ := Event.exists_pairs_of_ofLine hline
  exact ⟨pairs.map Prod.snd, rfl, hnumbers _ he⟩

/-- A file is read line by line: the lines with anything but blanks on them tell the events, in their
order, up to the first that fails. That is, of a file with real values, the first line of which a
predicate has no number behind its last equals sign, and the failure names the first such predicate;
without values no line fails. A file that is read to its end without a value that is not a number
gives the same events again when they are written and read. -/
theorem read_inLines (h : Utf8.encode t = some bytes) (realValued : Bool) :
    ∃ ls told rest, t.InLines ls ∧ ls.filter (fun l => l.any (!·.isBlank)) = told ++ rest ∧
      told.map (Event.ofLine realValued) = (read realValued bytes).items.map .ok ∧
      (realValued = true → ∀ l ∈ told, ∀ f ∈ l.words.tail, ¬ Event.Unreadable f) ∧
      (rest = [] ∧ (read realValued bytes).failure = none ∨
        ∃ l after feature, rest = l :: after ∧ realValued = true ∧ Event.FirstUnreadable l feature ∧
          (read realValued bytes).failure = some (.event (.invalidValue feature))) ∧
      ((read realValued bytes).failure = none →
        (∀ e ∈ (read realValued bytes).items, ∀ x ∈ e.values.getD [], x.isNaN = false) →
        ∃ again, write (read realValued bytes).items = some again ∧
          read realValued again = read realValued bytes) := by
  obtain ⟨ls, hls⟩ := t.exists_inLines
  have hread := read_of_inLines h hls realValued
  have hfilled : ls.filter (fun l => l.any (!·.isBlank)) = Text.filled ls :=
    List.filter_congr fun l _ => List.not_all_eq_any_not.symm
  obtain ⟨told, rest, hsplit, htold, hrest⟩ := Drain.andThen_ofList_cases (Text.filled ls)
    fun line => (Event.ofLine realValued line).mapError CorpusError.event
  rw [← hread] at htold hrest
  have htold := Except.map_eq_map_ok_of_mapError htold
  refine ⟨ls, told, rest, hls, hfilled.trans hsplit, htold, ?_, ?_, ?_⟩
  · rintro rfl l hl
    obtain ⟨e, he⟩ := Except.exists_of_map_eq_map_ok htold hl
    exact Event.not_unreadable_of_ofLine he
  · rcases hrest with hrest | ⟨l, after, cause, rfl, hl, hfailure⟩
    · exact .inl hrest
    · obtain ⟨cause, hline, rfl⟩ := Except.mapError_eq_error hl
      have hmem : l ∈ Text.filled ls := by
        rw [hsplit]
        exact List.mem_append_right _ List.mem_cons_self
      have hblank : l.isBlank = false := by simpa using (List.mem_filter.1 hmem).2
      obtain ⟨hreal, feature, hfirst, rfl⟩ := (Event.ofLine_eq_error_iff hblank).1 hline
      exact .inr ⟨l, after, feature, rfl, hreal, hfirst, hfailure⟩
  · intro hfailure hnumbers
    obtain ⟨again, hagain⟩ := exists_write_read h realValued
    have hsame : Drain.ofList (read realValued bytes).items = read realValued bytes := by
      rw [Drain.ofList, ← hfailure]
    refine ⟨again, hagain, Eq.trans ?_ hsame⟩
    cases realValued with
    | false => exact read_again_plain hagain
    | true => exact read_again_valued hnumbers hagain

/-- All line ends, a line of blanks that is no ASCII, a predicate without value, an empty name and a
name with equals signs; the last line lacks its end. -/
def mixedText : Text :=
  Text.concat ["A x =inf\r\n", [0x2028, 0x1C], "\rB ==-inf b=c=INFINITY\n\n\r C"]

def mixedEvents : List Event :=
  [⟨"A", .valued [("x", .one), ([], .infinity false)]⟩,
    ⟨"B", .valued [("=", .infinity true), ("b=c", .infinity false)]⟩, ⟨"C", .valued []⟩]

def brokenText : Text := "A x=inf\rB y z=1=\t=b c=inf\r\nC d=e"

theorem read_inLines_mixedText :
    (∃ bytes again, Utf8.encode mixedText = some bytes ∧ read true bytes = .ofList mixedEvents ∧
      write mixedEvents = some again ∧ read true again = .ofList mixedEvents) ∧
    ∃ bytes l, Utf8.encode brokenText = some bytes ∧
      read true bytes = ⟨[⟨"A", .valued [("x", .infinity false)]⟩], some (.event (.invalidValue "z=1="))⟩ ∧
      Event.FirstUnreadable l "z=1=" := by
  have hmixed : (Utf8.encode mixedText).map (read true) = some (.ofList mixedEvents) := by
    decide +kernel
  have hbroken : (Utf8.encode brokenText).map (read true) =
      some ⟨[⟨"A", .valued [("x", .infinity false)]⟩], some (.event (.invalidValue "z=1="))⟩ := by
    decide +kernel
  constructor
  · obtain ⟨bytes, hbytes, hread⟩ := Option.map_eq_some_iff.1 hmixed
    obtain ⟨_, _, _, -, -, -, -, -, hagain⟩ := read_inLines hbytes true
    rw [hread] at hagain
    obtain ⟨again, hwrite, hsame⟩ := hagain rfl (by decide)
    exact ⟨bytes, again, hbytes, hread, hwrite, hsame⟩
  · obtain ⟨bytes, hbytes, hread⟩ := Option.map_eq_some_iff.1 hbroken
    obtain ⟨_, _, _, -, -, -, -, hrest, -⟩ := read_inLines hbytes true
    rw [hread] at hrest
    rcases hrest with ⟨-, hnone⟩ | ⟨l, -, feature, -, -, hfirst, hfailure⟩
    · cases hnone
    · cases hfailure
      exact ⟨bytes, l, hbytes, hread, hfirst⟩

end EventFile

end MaxEnt
