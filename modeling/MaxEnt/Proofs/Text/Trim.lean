import Mathlib.Data.List.TakeWhile
import MaxEnt.Proofs.Text.Pieces

namespace MaxEnt.Text

variable {p : CodePoint → Bool} {t u : Text}

def Trimmed (p : CodePoint → Bool) (t : Text) : Prop :=
  (∀ c ∈ t.head?, p c = false) ∧ ∀ c ∈ t.getLast?, p c = false

instance (p : CodePoint → Bool) (t : Text) : Decidable (Trimmed p t) :=
  @instDecidableAnd _ _ (Option.decidableForallMem _) (Option.decidableForallMem _)

/-- Around `t`, on both sides, `u` has code points of the kind that `p` tells, or none. -/
def Padded (p : CodePoint → Bool) (t u : Text) : Prop :=
  ∃ before after : Text, (∀ c ∈ before, p c = true) ∧ (∀ c ∈ after, p c = true) ∧
    u = before ++ t ++ after

theorem trimmed_of_forall (h : ∀ c ∈ t, p c = false) : Trimmed p t :=
  ⟨fun c hc => h c (List.mem_of_head? hc), fun c hc => h c (List.mem_of_getLast? hc)⟩

theorem Padded.trans {v : Text} (htu : Padded p t u) (huv : Padded p u v) : Padded p t v := by
  obtain ⟨b, a, hb, ha, rfl⟩ := htu
  obtain ⟨b', a', hb', ha', rfl⟩ := huv
  exact ⟨b' ++ b, a ++ a', List.forall_mem_append.2 ⟨hb', hb⟩, List.forall_mem_append.2 ⟨ha, ha'⟩,
    by simp only [List.append_assoc]⟩

theorem Padded.subset (h : Padded p t u) : t ⊆ u := by
  obtain ⟨b, a, -, -, rfl⟩ := h
  exact fun c hc => List.mem_append_left _ (List.mem_append_right _ hc)

theorem Padded.not_mem (h : Padded p t u) {c : CodePoint} (hc : p c = false) (ht : c ∉ t) : c ∉ u := by
  obtain ⟨b, a, hb, ha, rfl⟩ := h
  have hpadding : ∀ v : Text, (∀ d ∈ v, p d = true) → c ∉ v := by
    intro v hv hm
    rw [hv c hm] at hc
    cases hc
  simp [hpadding b hb, hpadding a ha, ht]

theorem exists_dropLastWhile (p : CodePoint → Bool) (t : Text) :
    ∃ after : Text, (∀ c ∈ after, p c = true) ∧ dropLastWhile p t ++ after = t := by
  refine ⟨(t.reverse.takeWhile p).reverse, fun c hc => ?_, ?_⟩
  · exact List.all_eq_true.1 List.all_takeWhile c (List.mem_reverse.1 hc)
  · rw [dropLastWhile, ← List.reverse_append, List.takeWhile_append_dropWhile, List.reverse_reverse]

theorem head?_dropWhile (p : CodePoint → Bool) (t : Text) :
    ∀ c ∈ (t.dropWhile p).head?, p c = false := by
  intro c hc
  have hhead := List.head?_dropWhile_not p t
  rwa [hc] at hhead

theorem padded_dropWhile (p : CodePoint → Bool) (t : Text) : Padded p (t.dropWhile p) t :=
  ⟨t.takeWhile p, [], fun c => List.all_eq_true.1 List.all_takeWhile c, by simp, by simp⟩

theorem padded_dropLastWhile (p : CodePoint → Bool) (t : Text) : Padded p (dropLastWhile p t) t := by
  obtain ⟨after, hafter, happend⟩ := exists_dropLastWhile p t
  exact ⟨[], after, by simp, hafter, happend.symm⟩

theorem padded_trim (p : CodePoint → Bool) (t : Text) : Padded p (trim p t) t :=
  (padded_dropLastWhile p (t.dropWhile p)).trans (padded_dropWhile p t)

theorem head?_dropLastWhile (h : ∀ c ∈ t.head?, p c = false) :
    (dropLastWhile p t).head? = t.head? := by
  obtain ⟨after, hafter, happend⟩ := exists_dropLastWhile p t
  cases hdrop : dropLastWhile p t with
  | nil =>
    rw [hdrop, List.nil_append] at happend
    subst happend
    cases after with
    | nil => rfl
    | cons c after =>
      have hc := h c rfl
      rw [hafter c List.mem_cons_self] at hc
      cases hc
  | cons c rest =>
    rw [← happend, hdrop]
    rfl

theorem head?_trim (p : CodePoint → Bool) (t : Text) : (trim p t).head? = t.find? (!p ·) := by
  rw [List.find?_not_eq_head?_dropWhile, trim, head?_dropLastWhile (head?_dropWhile p t)]

theorem trimmed_trim (p : CodePoint → Bool) (t : Text) : Trimmed p (trim p t) := by
  constructor
  · rw [head?_trim, List.find?_not_eq_head?_dropWhile]
    exact head?_dropWhile p t
  · rw [trim, dropLastWhile, List.getLast?_reverse]
    exact head?_dropWhile p _

theorem trim_append {before after : Text} (hbefore : ∀ c ∈ before, p c = true)
    (hafter : ∀ c ∈ after, p c = true) (ht : t.Trimmed p) : trim p (before ++ t ++ after) = t := by
  cases t with
  | nil =>
    have hall : ∀ c ∈ before ++ after, p c = true := List.forall_mem_append.2 ⟨hbefore, hafter⟩
    rw [List.append_nil, trim, List.dropWhile_eq_nil_iff.2 hall]
    rfl
  | cons c t =>
    have hhead : ∀ d, (c :: t ++ after).head? = some d → p d = false := ht.1
    have hlast : ∀ d, (c :: t).reverse.head? = some d → p d = false := by
      rw [List.head?_reverse]
      exact ht.2
    rw [List.append_assoc, trim, dropWhile_append hbefore hhead, dropLastWhile, List.reverse_append,
      dropWhile_append (fun d hd => hafter d (List.mem_reverse.1 hd)) hlast, List.reverse_reverse]

/-- Trimming takes all of the padding away, and nothing else. -/
theorem trim_eq_iff : trim p u = t ↔ t.Trimmed p ∧ Padded p t u := by
  constructor
  · rintro rfl
    exact ⟨trimmed_trim p u, padded_trim p u⟩
  · rintro ⟨ht, before, after, hbefore, hafter, rfl⟩
    exact trim_append hbefore hafter ht

theorem trim_of_padded (h : Padded p t u) : trim p u = trim p t :=
  trim_eq_iff.2 ⟨trimmed_trim p t, (padded_trim p t).trans h⟩

section Inside

variable {c : CodePoint} (h : p c = false)
include h

theorem dropWhile_append_cons (t u : Text) :
    (t ++ c :: u).dropWhile p = t.dropWhile p ++ c :: u := by
  rw [List.dropWhile_append]
  split
  · rename_i hempty
    rw [List.isEmpty_iff.1 hempty, List.dropWhile_cons_of_neg (by simp [h]), List.nil_append]
  · rfl

theorem dropLastWhile_append_cons (t u : Text) :
    dropLastWhile p (t ++ c :: u) = t ++ c :: dropLastWhile p u := by
  have hreverse : (t ++ c :: u).reverse = u.reverse ++ c :: t.reverse := by simp
  rw [dropLastWhile, hreverse, dropWhile_append_cons h]
  simp [dropLastWhile]

theorem trim_append_cons (t u : Text) :
    trim p (t ++ c :: u) = t.dropWhile p ++ c :: dropLastWhile p u := by
  rw [trim, dropWhile_append_cons h, dropLastWhile_append_cons h]

end Inside

end MaxEnt.Text
