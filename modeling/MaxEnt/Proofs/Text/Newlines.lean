import MaxEnt.Proofs.Text.Breaks
import MaxEnt.Proofs.Text.Words

namespace MaxEnt

namespace Text

def Unbroken (t : Text) : Prop := ∀ c ∈ t, PlainText.isLineBreak c = false

instance (t : Text) : Decidable (Unbroken t) := inferInstanceAs (Decidable (∀ c ∈ t, _))

/-- A text and its lines. A line feed, a carriage return or both end a line; the last line may lack
its end unless it is empty. A carriage return that a line feed follows is no end of its own. -/
inductive InLines : Text → List Text → Prop
  | nil : InLines [] []
  | last {l : Text} (hne : l ≠ []) (hl : l.Unbroken) : InLines l [l]
  | feed {l t : Text} {ls : List Text} (hl : l.Unbroken) (ht : InLines t ls) :
      InLines (l ++ ↑ '\n' :: t) (l :: ls)
  | carriage {l t : Text} {ls : List Text} (hl : l.Unbroken) (hfeed : t.head? ≠ some ↑ '\n')
      (ht : InLines t ls) : InLines (l ++ ↑ '\r' :: t) (l :: ls)
  | both {l t : Text} {ls : List Text} (hl : l.Unbroken) (ht : InLines t ls) :
      InLines (l ++ ↑ '\r' :: ↑ '\n' :: t) (l :: ls)

variable {t l : Text} {ls : List Text}

theorem isLineBreak_iff (c : CodePoint) :
    PlainText.isLineBreak c = true ↔ c = ↑ '\n' ∨ c = ↑ '\r' := by
  simp [PlainText.isLineBreak]

theorem Unbroken.not_mem (h : l.Unbroken) {c : CodePoint} (hc : PlainText.isLineBreak c = true) :
    c ∉ l := by
  intro hm
  rw [h c hm] at hc
  cases hc

theorem unbroken_of_isWord {w : Text} (h : w.IsWord) : w.Unbroken := by
  intro c hc
  by_contra hbreak
  rw [Bool.not_eq_false, isLineBreak_iff] at hbreak
  have hblank := h.2 c hc
  rcases hbreak with rfl | rfl <;> cases hblank

theorem unifyNewlines_append (h : l.Unbroken) (t : Text) :
    unifyNewlines (l ++ t) = l ++ unifyNewlines t := by
  induction l with
  | nil => rfl
  | cons c l ih =>
    obtain ⟨hc, hl⟩ := List.forall_mem_cons.1 h
    have hreturn : ¬ c = ↑ '\r' := by
      rintro rfl
      cases hc
    rw [List.cons_append, unifyNewlines_cons, if_neg hreturn, ih hl, List.cons_append]

theorem unifyNewlines_feed (t : Text) : unifyNewlines (↑ '\n' :: t) = ↑ '\n' :: unifyNewlines t := by
  rw [unifyNewlines_cons, if_neg (by decide)]

theorem InLines.lines_unifyNewlines (h : t.InLines ls) : lines (unifyNewlines t) = ls := by
  induction h with
  | nil => rfl
  | last hne hl =>
    have hsame := unifyNewlines_append hl []
    rw [List.append_nil] at hsame
    rw [hsame]
    exact (congrArg lines (List.append_nil _)).trans (lines_of_not_mem (hl.not_mem rfl) hne)
  | feed hl _ ih =>
    rw [unifyNewlines_append hl, unifyNewlines_feed, lines_append (hl.not_mem rfl), ih]
  | carriage hl hfeed _ ih =>
    rw [unifyNewlines_append hl, unifyNewlines_cons, if_pos rfl, if_neg hfeed,
      lines_append (hl.not_mem rfl), ih]
  | both hl _ ih =>
    rw [unifyNewlines_append hl, unifyNewlines_cons, if_pos rfl, List.head?_cons, if_pos rfl,
      unifyNewlines_feed, lines_append (hl.not_mem rfl), ih]

theorem exists_unbroken (t : Text) : ∃ l rest : Text, t = l ++ rest ∧ l.Unbroken ∧
    ∀ c u, rest = c :: u → PlainText.isLineBreak c = true := by
  induction t with
  | nil => exact ⟨[], [], rfl, by simp [Unbroken], by simp⟩
  | cons c t ih =>
    cases hc : PlainText.isLineBreak c with
    | true =>
      refine ⟨[], c :: t, rfl, by simp [Unbroken], fun d u hd => ?_⟩
      rwa [(List.cons.inj hd).1] at hc
    | false =>
      obtain ⟨l, rest, rfl, hl, hrest⟩ := ih
      exact ⟨c :: l, rest, rfl, List.forall_mem_cons.2 ⟨hc, hl⟩, hrest⟩

theorem exists_inLines (t : Text) : ∃ ls, t.InLines ls := by
  obtain ⟨l, rest, rfl, hl, hrest⟩ := exists_unbroken t
  cases rest with
  | nil =>
    rw [List.append_nil]
    by_cases hne : l = []
    · exact ⟨[], hne ▸ .nil⟩
    · exact ⟨[l], .last hne hl⟩
  | cons c u =>
    have hshorter : u.length < (l ++ c :: u).length := by
      rw [List.length_append, List.length_cons]
      omega
    obtain ⟨ls, hls⟩ := exists_inLines u
    rcases (isLineBreak_iff c).1 (hrest c u rfl) with rfl | rfl
    · exact ⟨l :: ls, .feed hl hls⟩
    · by_cases hfeed : u.head? = some ↑ '\n'
      · obtain ⟨v, rfl⟩ := List.head?_eq_some_iff.1 hfeed
        have hshorter : v.length < (l ++ ↑ '\r' :: ↑ '\n' :: v).length := by
          simp only [List.length_append, List.length_cons]
          omega
        obtain ⟨ks, hks⟩ := exists_inLines v
        exact ⟨l :: ks, .both hl hks⟩
      · exact ⟨l :: ls, .carriage hl hfeed hls⟩
termination_by t.length

theorem inLines_iff : t.InLines ls ↔ lines (unifyNewlines t) = ls := by
  refine ⟨InLines.lines_unifyNewlines, ?_⟩
  rintro rfl
  obtain ⟨ls, hls⟩ := t.exists_inLines
  rwa [hls.lines_unifyNewlines]

theorem InLines.subset (h : t.InLines ls) (hl : l ∈ ls) : l ⊆ t := by
  induction h with
  | nil => cases hl
  | last => exact List.mem_singleton.1 hl ▸ List.Subset.refl _
  | feed _ _ ih =>
    rcases List.mem_cons.1 hl with rfl | hl
    · exact List.subset_append_left _ _
    · exact fun c hc => List.mem_append_right _ (List.mem_cons_of_mem _ (ih hl hc))
  | carriage _ _ _ ih =>
    rcases List.mem_cons.1 hl with rfl | hl
    · exact List.subset_append_left _ _
    · exact fun c hc => List.mem_append_right _ (List.mem_cons_of_mem _ (ih hl hc))
  | both _ _ ih =>
    rcases List.mem_cons.1 hl with rfl | hl
    · exact List.subset_append_left _ _
    · exact fun c hc => List.mem_append_right _
        (List.mem_cons_of_mem _ (List.mem_cons_of_mem _ (ih hl hc)))

theorem inLines_ended (h : ∀ l ∈ ls, l.Unbroken) : (ended ls).InLines ls := by
  induction ls with
  | nil => exact .nil
  | cons l ls ih =>
    obtain ⟨hl, hls⟩ := List.forall_mem_cons.1 h
    have hended : ended (l :: ls) = l ++ ↑ '\n' :: ended ls := by
      simp only [ended, List.flatMap_cons, List.append_assoc]
      rfl
    rw [hended]
    exact .feed hl (ih hls)

end Text

theorem Lines.ofBytes_of_inLines {t : Text} {bytes : List UInt8} {ls : List Text}
    (hbytes : Utf8.encode t = some bytes) (h : t.InLines ls) : Lines.ofBytes bytes = ⟨ls, false⟩ := by
  rw [Lines.ofBytes_of_encode hbytes, h.lines_unifyNewlines]

end MaxEnt
