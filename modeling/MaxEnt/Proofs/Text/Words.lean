import MaxEnt.Proofs.Text.Trim
import MaxEnt.Text.Blank

namespace MaxEnt.Text

/-- A piece of text that is not empty and that no blank divides. -/
def IsWord (t : Text) : Prop := t ≠ [] ∧ ∀ c ∈ t, c.isBlank = false

instance (t : Text) : Decidable (IsWord t) :=
  decidable_of_iff (!t.isEmpty && t.all (!·.isBlank)) (by simp [IsWord])

variable {w t : Text} {c : CodePoint}

theorem consWord_of_ne_nil (h : w ≠ []) (ws : List Text) : consWord w ws = w :: ws :=
  if_neg (mt List.isEmpty_iff.1 h)

theorem mem_consWord {u : Text} {ws : List Text} (h : u ∈ consWord w ws) : w ≠ [] ∧ u = w ∨ u ∈ ws := by
  unfold consWord at h
  split at h
  · exact .inr h
  · rename_i hne
    exact (List.mem_cons.1 h).imp_left fun hu => ⟨mt List.isEmpty_iff.2 hne, hu⟩

def scan (t : Text) : Text × List Text := t.foldr words.step ([], [])

theorem words_eq (t : Text) : words t = consWord (scan t).1 (scan t).2 := rfl

theorem scan_blank (h : c.isBlank = true) (t : Text) : scan (c :: t) = ([], words t) := if_pos h

theorem scan_append (h : ∀ c ∈ w, c.isBlank = false) (t : Text) :
    scan (w ++ t) = (w ++ (scan t).1, (scan t).2) := by
  induction w with
  | nil => rfl
  | cons c w ih =>
    obtain ⟨hc, hw⟩ := List.forall_mem_cons.1 h
    have hstep : scan (c :: (w ++ t)) = words.step c (scan (w ++ t)) := rfl
    have hnot : ¬ c.isBlank = true := by simp [hc]
    rw [List.cons_append, hstep, ih hw, words.step, if_neg hnot]
    rfl

theorem words_blank (h : c.isBlank = true) (t : Text) : words (c :: t) = words t := by
  rw [words_eq, scan_blank h]
  rfl

theorem words_of_isWord (h : w.IsWord) : words w = [w] := by
  have hscan := scan_append h.2 []
  rw [List.append_nil] at hscan
  rw [words_eq, hscan]
  exact (consWord_of_ne_nil (by simpa [scan] using h.1) _).trans (by simp [scan])

theorem words_append_blank (h : w.IsWord) (hc : c.isBlank = true) (t : Text) :
    words (w ++ c :: t) = w :: words t := by
  rw [words_eq, scan_append h.2, scan_blank hc, List.append_nil, consWord_of_ne_nil h.1]

theorem words_append_blanks {b : Text} (h : ∀ c ∈ b, c.isBlank = true) (t : Text) :
    words (t ++ b) = words t := by
  have hblanks : scan b = ([], []) := by
    induction b with
    | nil => rfl
    | cons c b ih =>
      obtain ⟨hc, hb⟩ := List.forall_mem_cons.1 h
      rw [scan_blank hc, words_eq, ih hb]
      rfl
  have hscan : scan (t ++ b) = scan t := by
    rw [scan, List.foldr_append, ← scan, hblanks]
    rfl
  rw [words_eq, hscan, ← words_eq]

theorem stripRight_subset (t : Text) : stripRight t ⊆ t :=
  (padded_dropLastWhile CodePoint.isBlank t).subset

theorem words_stripRight (t : Text) : words (stripRight t) = words t := by
  obtain ⟨b, hblanks, hstripped⟩ := exists_dropLastWhile CodePoint.isBlank t
  rw [stripRight, ← words_append_blanks hblanks, hstripped]

theorem words_intercalate {ws : List Text} (h : ∀ w ∈ ws, w.IsWord) :
    words (List.intercalate ↑ " " ws) = ws := by
  induction ws with
  | nil => rfl
  | cons w ws ih =>
    obtain ⟨hw, hws⟩ := List.forall_mem_cons.1 h
    cases ws with
    | nil => rw [List.intercalate_singleton, words_of_isWord hw]
    | cons v vs =>
      have hline : List.intercalate ↑ " " (w :: v :: vs) =
          w ++ ↑ ' ' :: List.intercalate ↑ " " (v :: vs) := by
        rw [List.intercalate_cons_cons, List.append_assoc]
        rfl
      rw [hline, words_append_blank hw (by decide), ih hws]

theorem isWord_scan (t : Text) :
    (∀ c ∈ (scan t).1, c.isBlank = false) ∧ ∀ w ∈ (scan t).2, w.IsWord := by
  induction t with
  | nil => simp [scan]
  | cons c t ih =>
    obtain ⟨hfirst, hrest⟩ := ih
    by_cases hc : c.isBlank = true
    · rw [scan_blank hc, words_eq]
      refine ⟨by simp, fun w hw => ?_⟩
      rcases mem_consWord hw with ⟨hne, rfl⟩ | hw
      · exact ⟨hne, hfirst⟩
      · exact hrest w hw
    · rw [← List.singleton_append, scan_append (by simpa using hc)]
      exact ⟨List.forall_mem_cons.2 ⟨by simpa using hc, hfirst⟩, hrest⟩

theorem isWord_of_mem_words (h : w ∈ words t) : w.IsWord := by
  -- A blank in front ends the first word.
  have hscan := (isWord_scan (↑ ' ' :: t)).2
  rw [scan_blank (by decide)] at hscan
  exact hscan w h

theorem scan_subset (t : Text) : (scan t).1 ⊆ t ∧ ∀ w ∈ (scan t).2, w ⊆ t := by
  induction t with
  | nil => simp [scan]
  | cons c t ih =>
    obtain ⟨hfirst, hrest⟩ := ih
    have hcons : ∀ {u : Text}, u ⊆ t → u ⊆ c :: t := fun hu => List.subset_cons_of_subset c hu
    by_cases hc : c.isBlank = true
    · rw [scan_blank hc, words_eq]
      refine ⟨List.nil_subset _, fun w hw => hcons ?_⟩
      rcases mem_consWord hw with ⟨-, rfl⟩ | hw
      · exact hfirst
      · exact hrest w hw
    · rw [← List.singleton_append, scan_append (by simpa using hc)]
      exact ⟨List.cons_subset_cons c hfirst, fun w hw => hcons (hrest w hw)⟩

theorem subset_of_mem_words (h : w ∈ words t) : w ⊆ t := by
  rcases mem_consWord h with ⟨-, rfl⟩ | h
  · exact (scan_subset t).1
  · exact (scan_subset t).2 w h

theorem words_eq_nil_iff : words t = [] ↔ t.isBlank = true := by
  induction t with
  | nil => decide
  | cons c t ih =>
    by_cases hc : c.isBlank = true
    · rw [words_blank hc, ih]
      simp [isBlank, hc]
    · have hscan := scan_append (w := [c]) (by simpa using hc) t
      rw [words_eq, ← List.singleton_append, hscan, consWord_of_ne_nil (by simp)]
      simp [isBlank, hc]

theorem isBlank_eq_false_of_words (h : w ∈ words t) : t.isBlank = false := by
  rw [Bool.eq_false_iff, ne_eq, ← words_eq_nil_iff]
  exact List.ne_nil_of_mem h

end MaxEnt.Text
