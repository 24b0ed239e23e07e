import MaxEnt.Corpus
import MaxEnt.Proofs.Text.Newlines

namespace MaxEnt

namespace Document

/-- The category and the words are words indeed: none is empty, and no blank divides one. -/
def OfWords (d : Document) : Prop := d.category.IsWord ∧ ∀ w ∈ d.words, w.IsWord

instance (d : Document) : Decidable d.OfWords := inferInstanceAs (Decidable (_ ∧ _))

variable {d : Document}

/-- Blanks at the end of the text hold no word, so that nothing is lost with them. -/
theorem words_text (d : Document) :
    d.text.words = Text.words (d.category ++ ↑ '\t' :: List.intercalate ↑ " " d.words) := by
  rw [text, Text.words_stripRight]
  simp only [Text.concat, List.flatten_cons, List.flatten_nil, List.append_nil]
  rfl

theorem OfWords.words_text (h : d.OfWords) : d.text.words = d.category :: d.words := by
  rw [Document.words_text, Text.words_append_blank h.1 (by decide), Text.words_intercalate h.2]

theorem ofLine_text_iff : ofLine d.text = .ok d ↔ d.OfWords := by
  constructor
  · intro h
    rw [ofLine] at h
    cases hwords : d.text.words with
    | nil =>
      rw [hwords] at h
      cases h
    | cons category words =>
      rw [hwords] at h
      obtain rfl : ⟨category, words⟩ = d := Except.ok.inj h
      have hall : ∀ w ∈ category :: words, w.IsWord := by
        rw [← hwords]
        exact fun _ => Text.isWord_of_mem_words
      exact List.forall_mem_cons.1 hall
  · intro h
    rw [ofLine, h.words_text]

theorem OfWords.unbroken_text (h : d.OfWords) : d.text.Unbroken := by
  have hwords : ∀ c ∈ List.intercalate ↑ " " d.words, PlainText.isLineBreak c = false :=
    Text.forall_mem_intercalate (List.forall_mem_singleton.2 (by decide))
      fun w hw => Text.unbroken_of_isWord (h.2 w hw)
  intro c hc
  have hmem : c ∈ d.category ∨ c ∈ Text.ofString "\t" ∨ c ∈ List.intercalate ↑ " " d.words := by
    have hconcat := Text.stripRight_subset _ hc
    simpa only [Text.concat, List.flatten_cons, List.flatten_nil, List.append_nil,
      List.mem_append] using hconcat
  rcases hmem with hcategory | htab | hword
  · exact Text.unbroken_of_isWord h.1 c hcategory
  · obtain rfl := List.mem_singleton.1 htab
    rfl
  · exact hwords c hword

theorem event_nil (d : Document) :
    event [] d = ⟨d.category, .plain (d.words.map fun w => "bow=" ++ w)⟩ := by
  simp [event, bagOfWords]

end Document

namespace DocumentFile

variable {ls : List Text} {t : Text} {bytes : List UInt8}

theorem entry_eq_skipped_iff {l : Text} : entry l = .skipped ↔ l.words.length = 1 := by
  rw [entry]
  rcases l.words with _ | ⟨category, _ | ⟨w, ws⟩⟩ <;> simp

theorem documents_eq (lines : Lines) :
    documents lines = (lines.read.filter fun l => 2 ≤ l.words.length).map
      fun l => ⟨l.words.headD [], l.words.tail⟩ := by
  rw [documents]
  induction lines.read with
  | nil => rfl
  | cons l ls ih =>
    rw [List.filterMap_cons, List.filter_cons, entry, ih]
    rcases hwords : l.words with _ | ⟨category, _ | ⟨w, ws⟩⟩ <;> simp [hwords]

theorem mem_skippedLines {lines : Lines} {n : Nat} :
    n ∈ skippedLines lines ↔ 0 < n ∧ ∃ l, lines.read[n - 1]? = some l ∧ l.words.length = 1 := by
  rw [skippedLines, List.mem_filterMap]
  constructor
  · rintro ⟨⟨e, number⟩, hplace, hnumber⟩
    obtain ⟨rfl, rfl⟩ : e = .skipped ∧ number = n := by simpa using hnumber
    obtain ⟨hpos, hentry⟩ := List.mk_mem_zipIdx_iff_le_and_getElem?_sub.1 hplace
    rw [List.getElem?_map, Option.map_eq_some_iff] at hentry
    obtain ⟨l, hl, hskipped⟩ := hentry
    exact ⟨hpos, l, hl, entry_eq_skipped_iff.1 hskipped⟩
  · rintro ⟨hpos, l, hl, hone⟩
    refine ⟨(.skipped, n), List.mk_mem_zipIdx_iff_le_and_getElem?_sub.2 ⟨hpos, ?_⟩, if_pos rfl⟩
    rw [List.getElem?_map, hl, Option.map_some, entry_eq_skipped_iff.2 hone]

theorem pairwise_skippedLines (lines : Lines) : (skippedLines lines).Pairwise (· < ·) := by
  have hnumbers : ((lines.read.map entry).zipIdx 1).Pairwise fun p q => p.2 < q.2 := by
    rw [← List.pairwise_map, List.zipIdx_map_snd]
    exact List.pairwise_lt_range' 1
  refine hnumbers.filterMap _ fun p q hlt n hn m hm => ?_
  obtain ⟨-, rfl⟩ : p.1 = .skipped ∧ p.2 = n := by simpa using hn
  obtain ⟨-, rfl⟩ : q.1 = .skipped ∧ q.2 = m := by simpa using hm
  exact hlt

theorem read_of_inLines (hbytes : Utf8.encode t = some bytes) (h : t.InLines ls) :
    Corpus.read .documents bytes =
      ⟨.ofList ((ls.filter fun l => 2 ≤ l.words.length).map fun l =>
          ⟨l.words.headD [], .plain (l.words.tail.map fun w => "bow=" ++ w)⟩),
        (skippedLines ⟨ls, false⟩).map warning⟩ := by
  rw [Corpus.read, Lines.ofBytes_of_inLines hbytes h, Corpus.ofLines, documents_eq, List.map_map]
  simp only [Function.comp_def, Document.event_nil]
  rfl

theorem read_of_texts {ds : List Document} (hds : ∀ d ∈ ds, d.OfWords ∧ d.words ≠ [])
    (hbytes : Utf8.encode t = some bytes) (h : t.InLines (ds.map Document.text)) :
    Corpus.read .documents bytes = ⟨.ofList (ds.map (Document.event [])), []⟩ := by
  have htwo : ∀ d ∈ ds, 2 ≤ d.text.words.length := by
    intro d hd
    have hpos := List.length_pos_iff.2 (hds d hd).2
    rw [(hds d hd).1.words_text, List.length_cons]
    omega
  have hnone : skippedLines ⟨ds.map Document.text, false⟩ = [] := by
    refine List.eq_nil_iff_forall_not_mem.2 fun n hn => ?_
    obtain ⟨-, l, hl, hone⟩ := mem_skippedLines.1 hn
    obtain ⟨d, hd, rfl⟩ := List.mem_map.1 (List.mem_of_getElem? hl)
    have htwo := htwo d hd
    omega
  have hall : (ds.map Document.text).filter (fun l => 2 ≤ l.words.length) = ds.map Document.text :=
    List.filter_eq_self.2 (List.forall_mem_map.2 fun d hd => decide_eq_true (htwo d hd))
  rw [read_of_inLines hbytes h, hnone, hall, List.map_map]
  congr 2
  refine List.map_congr_left fun d hd => ?_
  rw [Function.comp_apply, (hds d hd).1.words_text, Document.event_nil]
  rfl

/-- The text of a document tells the document if and only if words make it up. A file of documents
tells, whenever it is read, an event for each line with two words or more: the first word is the
outcome, and each word behind it makes a predicate. It warns of each line with one word, under the
number of the line. So a file with the texts of documents of words on its lines tells their events
and warns of nothing. -/
theorem read_documents :
    (∀ d : Document, Document.ofLine d.text = .ok d ↔ d.OfWords) ∧
    CorpusFormat.ofName? "doccat" = some .documents ∧
    (∀ (t : Text) (bytes : List UInt8), Utf8.encode t = some bytes →
      ∃ (ls : List Text) (numbers : List Nat), t.InLines ls ∧
      Corpus.read .documents bytes =
        ⟨.ofList ((ls.filter fun l => 2 ≤ l.words.length).map fun l =>
          ⟨l.words.headD [], .plain (l.words.tail.map fun w => "bow=" ++ w)⟩), numbers.map warning⟩ ∧
      numbers.Pairwise (· < ·) ∧
      ∀ n, n ∈ numbers ↔ 0 < n ∧ ∃ l, ls[n - 1]? = some l ∧ l.words.length = 1) ∧
    ∀ ds : List Document, (∀ d ∈ ds, d.OfWords ∧ d.words ≠ []) →
      (Text.ended (ds.map Document.text)).InLines (ds.map Document.text) ∧
      ∀ (t : Text) (bytes : List UInt8), t.InLines (ds.map Document.text) →
        Utf8.encode t = some bytes →
        Corpus.read .documents bytes = ⟨.ofList (ds.map (Document.event [])), []⟩ := by
  refine ⟨fun _ => Document.ofLine_text_iff, by decide, fun t bytes hbytes => ?_, fun ds hds => ⟨?_, ?_⟩⟩
  · obtain ⟨ls, hls⟩ := t.exists_inLines
    exact ⟨ls, skippedLines ⟨ls, false⟩, hls, read_of_inLines hbytes hls, pairwise_skippedLines _,
      fun _ => mem_skippedLines⟩
  · exact Text.inLines_ended (List.forall_mem_map.2 fun d hd => (hds d hd).1.unbroken_text)
  · exact fun t bytes hlines hbytes => read_of_texts hds hbytes hlines

/-- A category without words on the second and the last line, the last with a blank that is no ASCII. -/
def mixedText : Text := Text.concat ["spam\tbuy now\r\nalone\n\n ham x\tx\rlast", [0x2003]]

def mixedEvents : List Event :=
  [⟨"spam", .plain ["bow=buy", "bow=now"]⟩, ⟨"ham", .plain ["bow=x", "bow=x"]⟩]

def mixedWarnings : List Text :=
  ["Skipping sample without text on line 2", "Skipping sample without text on line 5"]

def neatDocuments : List Document := [⟨"spam", ["buy", "now", "now"]⟩, ⟨"bow=", [[0x1F600]]⟩]

theorem read_documents_mixedText :
    (∃ (bytes : List UInt8) (ls : List Text) (numbers : List Nat),
      Utf8.encode mixedText = some bytes ∧ mixedText.InLines ls ∧
      Corpus.read .documents bytes = ⟨.ofList mixedEvents, mixedWarnings⟩ ∧
      numbers.map warning = mixedWarnings ∧
      ∀ n, n ∈ numbers ↔ 0 < n ∧ ∃ l, ls[n - 1]? = some l ∧ l.words.length = 1) ∧
    (∀ d ∈ neatDocuments, d.OfWords ∧ d.words ≠ []) ∧
    ∃ bytes, Utf8.encode (Text.ended (neatDocuments.map Document.text)) = some bytes ∧
      Corpus.read .documents bytes = ⟨.ofList (neatDocuments.map (Document.event [])), []⟩ := by
  obtain ⟨-, -, hfile, htexts⟩ := read_documents
  have hneat : ∀ d ∈ neatDocuments, d.OfWords ∧ d.words ≠ [] := by decide
  refine ⟨?_, hneat, ?_⟩
  · have hmixed : (Utf8.encode mixedText).map (fun bytes =>
        ((Corpus.read .documents bytes).events, (Corpus.read .documents bytes).warnings)) =
        some (Drain.ofList mixedEvents, mixedWarnings) := by
      decide +kernel
    obtain ⟨bytes, hbytes, hread⟩ := Option.map_eq_some_iff.1 hmixed
    obtain ⟨hevents, hwarnings⟩ := Prod.mk.inj hread
    obtain ⟨ls, numbers, hls, hcorpus, -, hnumbers⟩ := hfile mixedText bytes hbytes
    rw [hcorpus] at hevents hwarnings
    have hsame : Corpus.read .documents bytes = ⟨.ofList mixedEvents, mixedWarnings⟩ := by
      rw [hcorpus, ← hwarnings]
      exact congrArg (Corpus.mk · _) hevents
    exact ⟨bytes, ls, numbers, hbytes, hls, hsame, hwarnings, hnumbers⟩
  · have hencodes : (Utf8.encode (Text.ended (neatDocuments.map Document.text))).isSome = true := by
      decide +kernel
    obtain ⟨bytes, hbytes⟩ := Option.isSome_iff_exists.1 hencodes
    obtain ⟨hlines, hread⟩ := htexts neatDocuments hneat
    exact ⟨bytes, hbytes, hread _ bytes hlines hbytes⟩

end DocumentFile

end MaxEnt
