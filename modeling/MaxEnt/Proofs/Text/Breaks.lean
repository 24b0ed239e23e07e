import MaxEnt.Codec.PlainText
import MaxEnt.Proofs.Text.Lines

namespace MaxEnt.Text

def pieces (t : Text) : List Text := t.splitOnP PlainText.isLineBreak

def filled (ts : List Text) : List Text := ts.filter (!isBlank ·)

theorem filled_cons_nil (ts : List Text) : filled ([] :: ts) = filled ts := rfl

theorem filled_cons_congr {p : Text} {ps qs : List Text} (h : filled ps = filled qs) :
    filled (p :: ps) = filled (p :: qs) := by
  have hcons : ∀ ts, filled (p :: ts) = if !isBlank p then p :: filled ts else filled ts :=
    fun _ => List.filter_cons
  rw [hcons, hcons, h]

theorem cutStep_of_ne {separator c : CodePoint} (h : c ≠ separator) (p : Text) (ps : List Text) :
    cutStep separator c (p :: ps) = (c :: p) :: ps := if_neg h

/-- The last line may lack its line feed, so that nothing is behind it. -/
theorem splitOn_eq_lines (t : Text) :
    splitOn '\n' t = lines t ∨ splitOn '\n' t = lines t ++ [[]] := by
  induction t with
  | nil => exact .inr rfl
  | cons c t ih =>
    rw [splitOn_cons, lines_cons]
    by_cases hc : c = ↑ '\n'
    · simpa [cutStep, hc] using ih
    · cases hlines : lines t with
      | nil =>
        rcases ih with ih | ih <;> rw [ih, hlines]
        · exact .inl rfl
        · exact .inl (by simp [cutStep, hc])
      | cons l ls =>
        rcases ih with ih | ih <;> rw [ih, hlines]
        · exact .inl rfl
        · exact .inr (by simp [cutStep, hc])

theorem filled_lines (t : Text) : filled (lines t) = filled (splitOn '\n' t) := by
  rcases splitOn_eq_lines t with h | h <;> rw [h]
  simp [filled, isBlank]

theorem unifyNewlines_snd (t : Text) :
    (t.foldr unifyNewlines.step ([], none)).2 = t.head? := by
  cases t with
  | nil => rfl
  | cons c t =>
    rw [List.foldr_cons, unifyNewlines.step]
    split <;> rfl

theorem unifyNewlines_cons (c : CodePoint) (t : Text) : unifyNewlines (c :: t) =
    if c = ↑ '\r' then if t.head? = some ↑ '\n' then unifyNewlines t else ↑ '\n' :: unifyNewlines t
    else c :: unifyNewlines t := by
  have hnext := unifyNewlines_snd t
  rw [unifyNewlines, List.foldr_cons, unifyNewlines.step, hnext]
  split
  · split <;> rfl
  · rfl

theorem pieces_break {c : CodePoint} (h : PlainText.isLineBreak c = true) (t : Text) :
    pieces (c :: t) = [] :: pieces t :=
  (List.splitOnP_cons_eq_if_modifyHead c t).trans (if_pos h)

theorem pieces_cons {c : CodePoint} (h : PlainText.isLineBreak c = false) {t p : Text}
    {ps : List Text} (ht : pieces t = p :: ps) : pieces (c :: t) = (c :: p) :: ps := by
  have hcons : pieces (c :: t) = (pieces t).modifyHead (c :: ·) :=
    (List.splitOnP_cons_eq_if_modifyHead c t).trans (if_neg (by simp [h]))
  rw [hcons, ht]
  rfl

/-- Both cuts give the same first piece, and behind it the same pieces but for empty ones: a line
feed behind a carriage return ends no line of its own. -/
theorem exists_splitOn_unifyNewlines (t : Text) : ∃ p ps qs,
    splitOn '\n' (unifyNewlines t) = p :: ps ∧ pieces t = p :: qs ∧ filled ps = filled qs := by
  induction t with
  | nil => exact ⟨[], [], [], rfl, rfl, rfl⟩
  | cons c t ih =>
    obtain ⟨p, ps, qs, hps, hqs, hfilled⟩ := ih
    rw [unifyNewlines_cons]
    by_cases hreturn : c = ↑ '\r'
    · have hpieces := pieces_break (by simp [PlainText.isLineBreak, hreturn] :
        PlainText.isLineBreak c = true) t
      rw [if_pos hreturn]
      split
      -- The line feed has cut the text already, with nothing in front of it.
      · rename_i hfeed
        obtain ⟨u, rfl⟩ := List.head?_eq_some_iff.1 hfeed
        have hu := pieces_break (by decide : PlainText.isLineBreak ↑ '\n' = true) u
        obtain ⟨rfl, rfl⟩ := List.cons.inj (hu.symm.trans hqs)
        refine ⟨[], ps, [] :: pieces u, hps, by rw [hpieces, hu], ?_⟩
        rw [filled_cons_nil, hfilled]
      · refine ⟨[], p :: ps, p :: qs, ?_, by rw [hpieces, hqs], filled_cons_congr hfilled⟩
        rw [splitOn_separator, hps]
    · rw [if_neg hreturn]
      by_cases hfeed : c = ↑ '\n'
      · have hpieces := pieces_break (by simp [PlainText.isLineBreak, hfeed] :
          PlainText.isLineBreak c = true) t
        refine ⟨[], p :: ps, p :: qs, ?_, by rw [hpieces, hqs], filled_cons_congr hfilled⟩
        rw [hfeed, splitOn_separator, hps]
      · have hbreak : PlainText.isLineBreak c = false := by
          simp [PlainText.isLineBreak, hfeed, hreturn]
        refine ⟨c :: p, ps, qs, ?_, pieces_cons hbreak hqs, hfilled⟩
        rw [splitOn_cons, hps, cutStep_of_ne hfeed]

/-- A line feed, a carriage return and both together each end a line: the lines that are not blank
are the pieces between the line breaks that are not. -/
theorem filled_lines_unifyNewlines (t : Text) :
    filled (lines (unifyNewlines t)) = filled (pieces t) := by
  obtain ⟨p, ps, qs, hps, hqs, hfilled⟩ := exists_splitOn_unifyNewlines t
  rw [filled_lines, hps, hqs, filled_cons_congr hfilled]

theorem pieces_ended {ls : List Text} (h : ∀ l ∈ ls, ∀ c ∈ l, PlainText.isLineBreak c = false) :
    pieces (ended ls) = ls ++ [[]] := by
  induction ls with
  | nil => rfl
  | cons l ls ih =>
    obtain ⟨hl, hls⟩ := List.forall_mem_cons.1 h
    have hended : ended (l :: ls) = l ++ ↑ '\n' :: ended ls := by
      simp only [ended, List.flatMap_cons, List.append_assoc]
      rfl
    have hfirst := List.splitOnP_append_cons_of_forall_mem hl ↑ '\n' (by decide) (ended ls)
    rw [hended, pieces, hfirst, ← pieces, ih hls]
    rfl

end MaxEnt.Text
