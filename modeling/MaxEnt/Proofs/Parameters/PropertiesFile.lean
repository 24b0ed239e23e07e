import MaxEnt.Parameters.PropertiesFile
import MaxEnt.Proofs.Index.FirstSeen
import MaxEnt.Proofs.Table
import MaxEnt.Proofs.Text.Newlines
import MaxEnt.Proofs.Text.Trim

namespace MaxEnt

namespace Table

variable {κ α : Type} [DecidableEq κ]

theorem keys_insert (t : Table κ α) (key : κ) (value : α) :
    (t.insert key value).keys = if key ∈ t.keys then t.keys else t.keys ++ [key] :=
  keys_insertEntry key value t.entries

theorem firstSeen_keys_ofList [BEq κ] [LawfulBEq κ] (es : List (κ × α)) :
    FirstSeen (es.map Prod.fst) (fun _ => True) (ofList es).keys := by
  induction es using List.reverseRecOn with
  | nil => exact ⟨by simp [ofList, insertAll, keys, empty], List.Pairwise.nil⟩
  | append_singleton es e ih =>
    have hlast : ofList (es ++ [e]) = (ofList es).insert e.1 e.2 := List.foldl_concat _ _ _ _
    have hmem : e.1 ∈ (ofList es).keys ↔ e.1 ∈ es.map Prod.fst := by simpa using ih.mem_iff e.1
    have hkeys := ih.append_singleton e.1
    rw [hlast, keys_insert, List.map_append]
    by_cases hseen : e.1 ∈ es.map Prod.fst
    · rw [if_pos hseen] at hkeys
      rwa [if_pos (hmem.2 hseen)]
    · rw [if_neg hseen] at hkeys
      rwa [if_neg (mt hmem.1 hseen)]

end Table

namespace PropertiesFile

/-- A line that tells nothing: only blanks are on it, or what comes first behind them begins a
comment. -/
def Skipped (line : Text) : Prop :=
  line.find? (!·.isBlank) ∈ [none, some ↑ '#', some ↑ '!']

instance (line : Text) : Decidable (Skipped line) := inferInstanceAs (Decidable (_ ∈ _))

def Faulty (line : Text) : Prop := ¬ Skipped line ∧ ↑ '=' ∉ line

instance (line : Text) : Decidable (Faulty line) := inferInstanceAs (Decidable (_ ∧ _))

structure IsKey (key : Text) : Prop where
  trimmed : key.Trimmed CodePoint.isBlank
  equals_not_mem : ↑ '=' ∉ key
  head?_not_mem : key.head? ∉ [some ↑ '#', some ↑ '!']

instance (key : Text) : Decidable (IsKey key) :=
  decidable_of_iff
    (key.Trimmed CodePoint.isBlank ∧ ↑ '=' ∉ key ∧ key.head? ∉ [some ↑ '#', some ↑ '!'])
    ⟨fun ⟨htrimmed, hequals, hhead⟩ => ⟨htrimmed, hequals, hhead⟩,
      fun ⟨htrimmed, hequals, hhead⟩ => ⟨htrimmed, hequals, hhead⟩⟩

/-- A line on which the key, an equals sign and the value stand, with blanks around each. -/
def Written (key value line : Text) : Prop :=
  ∃ before after : Text, key.Padded CodePoint.isBlank before ∧
    value.Padded CodePoint.isBlank after ∧ line = before ++ ↑ '=' :: after

/-- The lines on which these pairs are written in their order, with lines between that tell nothing. -/
inductive Listed : List (Text × Text) → List Text → Prop
  | nil : Listed [] []
  | skipped {es : List (Text × Text)} {ls : List Text} {line : Text} (hline : Skipped line)
      (hrest : Listed es ls) : Listed es (line :: ls)
  | written {es : List (Text × Text)} {ls : List Text} {key value line : Text}
      (hline : Written key value line) (hrest : Listed es ls) :
      Listed ((key, value) :: es) (line :: ls)

def IsPair (e : Text × Text) : Prop := IsKey e.1 ∧ e.2.Trimmed CodePoint.isBlank

instance (e : Text × Text) : Decidable (IsPair e) := inferInstanceAs (Decidable (_ ∧ _))

variable {line key value before after : Text} {es : List (Text × Text)} {ls : List Text}

theorem head?_strip (line : Text) : (Text.strip line).head? = line.find? (!·.isBlank) :=
  Text.head?_trim CodePoint.isBlank line

theorem isProperty_strip_iff : isProperty (Text.strip line) = true ↔ ¬ Skipped line := by
  rw [Skipped, ← head?_strip]
  cases Text.strip line <;> simp [isProperty]

theorem skipped_line_iff (before after : Text) : Skipped (before ++ ↑ '=' :: after) ↔
    (Text.strip before).head? ∈ [some ↑ '#', some ↑ '!'] := by
  rw [Skipped, List.find?_append, List.find?_cons_of_pos (by decide), head?_strip]
  cases before.find? (!·.isBlank) with
  | none => decide
  | some c => simp

theorem pair_strip (h : ↑ '=' ∉ before) (after : Text) :
    pair (Text.strip (before ++ ↑ '=' :: after)) =
      .ok (Text.strip before, .string (Text.strip after)) := by
  have hbefore : ↑ '=' ∉ before.dropWhile CodePoint.isBlank := fun hm =>
    h (List.dropWhile_subset _ hm)
  rw [Text.strip, Text.trim_append_cons (by decide), pair, Text.splitFirst_append hbefore]
  simp only [Text.strip, ← Text.trim_of_padded (Text.padded_dropWhile _ _),
    ← Text.trim_of_padded (Text.padded_dropLastWhile _ _)]

theorem Written.not_skipped (h : Written key value line) (hkey : IsKey key) : ¬ Skipped line := by
  obtain ⟨before, after, hbefore, -, rfl⟩ := h
  rw [skipped_line_iff, Text.strip, Text.trim_eq_iff.2 ⟨hkey.trimmed, hbefore⟩]
  exact hkey.head?_not_mem

theorem Written.pair_strip (h : Written key value line) (hpair : IsPair (key, value)) :
    pair (Text.strip line) = .ok (key, .string value) := by
  obtain ⟨before, after, hbefore, hafter, rfl⟩ := h
  have hequals : ↑ '=' ∉ before := hbefore.not_mem (by decide) hpair.1.equals_not_mem
  rw [PropertiesFile.pair_strip hequals, Text.strip, Text.strip,
    Text.trim_eq_iff.2 ⟨hpair.1.trimmed, hbefore⟩, Text.trim_eq_iff.2 ⟨hpair.2, hafter⟩]

theorem skipped_or_faulty_or_written (line : Text) : Skipped line ∨ Faulty line ∨
    ∃ key value, IsPair (key, value) ∧ Written key value line := by
  by_cases hskipped : Skipped line
  · exact .inl hskipped
  by_cases hequals : ↑ '=' ∈ line
  · obtain ⟨before, after, rfl, hbefore⟩ := List.eq_append_cons_of_mem hequals
    have hkey : IsKey (Text.strip before) :=
      { trimmed := Text.trimmed_trim _ _
        equals_not_mem := fun hm => hbefore ((Text.padded_trim _ before).subset hm)
        head?_not_mem := mt (skipped_line_iff before after).2 hskipped }
    exact .inr (.inr ⟨Text.strip before, Text.strip after, ⟨hkey, Text.trimmed_trim _ _⟩,
      before, after, Text.padded_trim _ _, Text.padded_trim _ _, rfl⟩)
  · exact .inr (.inl ⟨hskipped, hequals⟩)

theorem pairs_cons_of_skipped (h : Skipped line) (ls : List Text) : pairs (line :: ls) = pairs ls := by
  have hproperty : ¬ isProperty (Text.strip line) = true := fun hp => isProperty_strip_iff.1 hp h
  rw [pairs, List.map_cons, List.filter_cons_of_neg hproperty, pairs]

theorem pairs_cons (h : ¬ Skipped line) (ls : List Text) :
    pairs (line :: ls) = do
      let e ← pair (Text.strip line)
      let es ← pairs ls
      return e :: es := by
  rw [pairs, List.map_cons, List.filter_cons_of_pos (isProperty_strip_iff.2 h), List.mapM_cons, pairs]

theorem Faulty.pair_strip (h : Faulty line) :
    pair (Text.strip line) = .error (.invalidLine (Text.strip line)) := by
  have hequals : ↑ '=' ∉ Text.strip line := fun hm => h.2 ((Text.padded_trim _ line).subset hm)
  rw [pair, Text.splitFirst_of_not_mem hequals]

theorem pairs_of_listed (h : Listed es ls) (hes : ∀ e ∈ es, IsPair e) :
    pairs ls = .ok (es.map fun e => (e.1, .string e.2)) := by
  induction h with
  | nil => rfl
  | skipped hline _ ih => rw [pairs_cons_of_skipped hline, ih hes]
  | written hline _ ih =>
    obtain ⟨he, hes⟩ := List.forall_mem_cons.1 hes
    rw [pairs_cons (hline.not_skipped he.1), hline.pair_strip he, ih hes]
    rfl

theorem pairs_of_faulty (h : ∃ line ∈ ls, Faulty line) : ∃ before line after,
    ls = before ++ line :: after ∧ Faulty line ∧ (∀ l ∈ before, ¬ Faulty l) ∧
      pairs ls = .error (.invalidLine (Text.strip line)) := by
  induction ls with
  | nil => simp at h
  | cons l ls ih =>
    by_cases hfaulty : Faulty l
    · refine ⟨[], l, ls, rfl, hfaulty, by simp, ?_⟩
      rw [pairs_cons hfaulty.1, hfaulty.pair_strip]
      rfl
    · have hlater : ∃ line ∈ ls, Faulty line := by simpa [hfaulty] using h
      obtain ⟨before, line, after, rfl, hline, hbefore, hpairs⟩ := ih hlater
      refine ⟨l :: before, line, after, rfl, hline, List.forall_mem_cons.2 ⟨hfaulty, hbefore⟩, ?_⟩
      rcases skipped_or_faulty_or_written l with hl | hl | ⟨key, value, hpair, hl⟩
      · rw [pairs_cons_of_skipped hl, hpairs]
      · exact absurd hl hfaulty
      · rw [pairs_cons (hl.not_skipped hpair.1), hl.pair_strip hpair, hpairs]
        rfl

theorem exists_listed (h : ∀ line ∈ ls, ¬ Faulty line) :
    ∃ es, (∀ e ∈ es, IsPair e) ∧ Listed es ls := by
  induction ls with
  | nil => exact ⟨[], by simp, .nil⟩
  | cons l ls ih =>
    obtain ⟨hfaulty, hls⟩ := List.forall_mem_cons.1 h
    obtain ⟨es, hes, hlisted⟩ := ih hls
    rcases skipped_or_faulty_or_written l with hl | hl | ⟨key, value, hpair, hl⟩
    · exact ⟨es, hes, .skipped hl hlisted⟩
    · exact absurd hl hfaulty
    · exact ⟨(key, value) :: es, List.forall_mem_cons.2 ⟨hpair, hes⟩, .written hl hlisted⟩

def mapping (es : List (Text × Text)) : Table Text Json := .ofList (es.map fun e => (e.1, .string e.2))

theorem firstSeen_keys_mapping (es : List (Text × Text)) :
    FirstSeen (es.map Prod.fst) (fun _ => True) (mapping es).keys := by
  have hkeys := Table.firstSeen_keys_ofList (es.map fun e => (e.1, Json.string e.2))
  rwa [List.map_map] at hkeys

theorem get?_mapping_eq_some_iff {value : Json} : (mapping es).get? key = some value ↔
    ∃ before text after, es = before ++ (key, text) :: after ∧ key ∉ after.map Prod.fst ∧
      value = .string text := by
  rw [mapping, Table.get?_ofList_eq_some_iff]
  constructor
  · rintro ⟨before, after, hes, hafter⟩
    obtain ⟨before, rest, rfl, rfl, hrest⟩ := List.map_eq_append_iff.1 hes
    obtain ⟨⟨k, text⟩, after, rfl, he, rfl⟩ := List.map_eq_cons_iff.1 hrest
    obtain ⟨rfl, rfl⟩ := Prod.mk.inj he
    exact ⟨before, text, after, rfl, by rwa [List.map_map] at hafter, rfl⟩
  · rintro ⟨before, text, after, rfl, hafter, rfl⟩
    refine ⟨_, after.map fun e => (e.1, .string e.2), List.map_append, ?_⟩
    rwa [List.map_map]

theorem read_of_listed {t : Text} {bytes : List UInt8} (hes : ∀ e ∈ es, IsPair e)
    (h : Listed es ls) (hlines : t.InLines ls) (hbytes : Utf8.encode t = some bytes) :
    read bytes = (Parameters.ofMapping (mapping es)).mapError .mapping := by
  rw [read, Lines.ofBytes_of_inLines hbytes hlines, parameters, pairs_of_listed h hes]
  rfl

/-- A file in which each line that is neither blank nor a comment tells a pair gives what the mapping
of the pairs gives, a key that comes again having its last value at its first place. In any other file
a line is at fault, and the first such line is told, whatever the other lines are. -/
theorem read_pairs :
    (∀ (es : List (Text × Text)) (ls : List Text) (t : Text) (bytes : List UInt8),
      (∀ e ∈ es, IsPair e) → Listed es ls → t.InLines ls → Utf8.encode t = some bytes →
      read bytes = (Parameters.ofMapping (mapping es)).mapError .mapping ∧
        FirstSeen (es.map Prod.fst) (fun _ => True) (mapping es).keys ∧
        ∀ key value, (mapping es).get? key = some value ↔ ∃ before text after,
          es = before ++ (key, text) :: after ∧ key ∉ after.map Prod.fst ∧ value = .string text) ∧
    (∀ (ls : List Text) (t : Text) (bytes : List UInt8), t.InLines ls →
      Utf8.encode t = some bytes → (∃ line ∈ ls, Faulty line) →
      ∃ before line after, ls = before ++ line :: after ∧ Faulty line ∧
        (∀ l ∈ before, ¬ Faulty l) ∧ read bytes = .error (.invalidLine (Text.strip line))) ∧
    ∀ t : Text, ∃ ls, t.InLines ls ∧
      ((∃ es, (∀ e ∈ es, IsPair e) ∧ Listed es ls) ∨ ∃ line ∈ ls, Faulty line) := by
  refine ⟨fun es ls t bytes hes hlisted hlines hbytes =>
      ⟨read_of_listed hes hlisted hlines hbytes, firstSeen_keys_mapping es,
        fun _ _ => get?_mapping_eq_some_iff⟩,
    fun ls t bytes hlines hbytes hfaulty => ?_, fun t => ?_⟩
  · obtain ⟨before, line, after, hsplit, hline, hbefore, hpairs⟩ := pairs_of_faulty hfaulty
    refine ⟨before, line, after, hsplit, hline, hbefore, ?_⟩
    rw [read, Lines.ofBytes_of_inLines hbytes hlines, parameters, hpairs]
    rfl
  · obtain ⟨ls, hls⟩ := t.exists_inLines
    refine ⟨ls, hls, ?_⟩
    by_cases hfaulty : ∃ line ∈ ls, Faulty line
    · exact .inr hfaulty
    · exact .inl (exists_listed fun line hline hbad => hfaulty ⟨line, hline, hbad⟩)

/-- All line ends, both comments, blanks that are no ASCII, signs inside of a value, a key that comes
again, and a value that is empty; the last line lacks its end. -/
def mixedText : Text :=
  Text.concat ["# first\r\n Iterations\t= 5 \r", [0x2003], "! x = 1\n\nAlgorithm=a=#b", [0xA0],
    "\rIterations = 1_0\nnote ="]

def mixedLines : List Text :=
  ["# first", " Iterations\t= 5 ", Text.concat [[0x2003], "! x = 1"], [],
    Text.concat ["Algorithm=a=#b", [0xA0]], "Iterations = 1_0", "note ="]

def mixedPairs : List (Text × Text) :=
  [("Iterations", "5"), ("Algorithm", "a=#b"), ("Iterations", "1_0"), ("note", [])]

theorem listed_mixedPairs : Listed mixedPairs mixedLines := by
  have hwritten : ∀ before after : Text,
      Written (Text.strip before) (Text.strip after) (before ++ ↑ '=' :: after) := fun before after =>
    ⟨before, after, Text.padded_trim _ _, Text.padded_trim _ _, rfl⟩
  refine .skipped (by decide +kernel) (.written (hwritten " Iterations\t" " 5 ") ?_)
  refine .skipped (by decide +kernel) (.skipped (by decide +kernel) ?_)
  refine .written (hwritten "Algorithm" (Text.concat ["a=#b", [0xA0]])) ?_
  exact .written (hwritten "Iterations " " 1_0") (.written (hwritten "note " []) .nil)

def brokenText : Text := "Iterations=many\n\tCutoff 5 \r\nsort"

def brokenLines : List Text := ["Iterations=many", "\tCutoff 5 ", "sort"]

theorem read_pairs_mixedText :
    (∃ bytes, Utf8.encode mixedText = some bytes ∧ (∀ e ∈ mixedPairs, IsPair e) ∧
      mixedText.InLines mixedLines ∧ Listed mixedPairs mixedLines ∧
      read bytes = (Parameters.ofMapping (mapping mixedPairs)).mapError .mapping ∧
      (read bytes).toOption.bind (fun ps => ps.iterations.proper?) = some 10 ∧
      (mapping mixedPairs).get? "Iterations" = some (.string "1_0")) ∧
    ∃ (bytes : List UInt8) (line : Text) (after : List Text),
      Utf8.encode brokenText = some bytes ∧ brokenText.InLines brokenLines ∧
      brokenLines = ↑ "Iterations=many" :: line :: after ∧ Faulty line ∧
      read bytes = .error (.invalidLine (Text.strip line)) := by
  obtain ⟨hlisted, hfaulty, -⟩ := read_pairs
  constructor
  · have hencodes : (Utf8.encode mixedText).isSome = true := by decide +kernel
    obtain ⟨bytes, hbytes⟩ := Option.isSome_iff_exists.1 hencodes
    have hpairs : ∀ e ∈ mixedPairs, IsPair e := by decide +kernel
    have hlines : mixedText.InLines mixedLines := Text.inLines_iff.2 (by decide +kernel)
    obtain ⟨hread, -, hvalues⟩ :=
      hlisted mixedPairs mixedLines mixedText bytes hpairs listed_mixedPairs hlines hbytes
    refine ⟨bytes, hbytes, hpairs, hlines, listed_mixedPairs, hread, ?_, ?_⟩
    · rw [hread]
      decide +kernel
    · exact (hvalues _ _).2 ⟨mixedPairs.take 2, "1_0", [("note", [])], rfl, by decide +kernel, rfl⟩
  · have hencodes : (Utf8.encode brokenText).isSome = true := by decide +kernel
    obtain ⟨bytes, hbytes⟩ := Option.isSome_iff_exists.1 hencodes
    have hlines : brokenText.InLines brokenLines := Text.inLines_iff.2 (by decide +kernel)
    have hsecond : Faulty "\tCutoff 5 " := by decide +kernel
    have hfirst : ¬ Faulty "Iterations=many" := by decide +kernel
    obtain ⟨before, line, after, hsplit, hline, hbefore, hread⟩ := hfaulty brokenLines brokenText bytes
      hlines hbytes ⟨"\tCutoff 5 ", by simp [brokenLines], hsecond⟩
    cases before with
    | nil => exact absurd ((List.cons.inj hsplit).1 ▸ hline) hfirst
    | cons l before =>
      obtain ⟨rfl, hrest⟩ := List.cons.inj hsplit
      cases before with
      | nil => exact ⟨bytes, line, after, hbytes, hlines, hsplit, hline, hread⟩
      | cons k before =>
        -- The second line itself is at fault.
        obtain ⟨rfl, -⟩ := List.cons.inj hrest
        exact absurd hsecond (hbefore _ (by simp))

end PropertiesFile

end MaxEnt
