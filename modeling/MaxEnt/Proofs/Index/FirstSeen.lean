import Mathlib.Data.List.Basic
import Mathlib.Data.List.Induction
import Mathlib.Data.List.Nodup

namespace MaxEnt

variable {α : Type} [BEq α] [LawfulBEq α]

/-- The wanted ones of the values `xs`, each once, in the order in which they first come. -/
structure FirstSeen (xs : List α) (wanted : α → Prop) (ds : List α) : Prop where
  mem_iff : ∀ a, a ∈ ds ↔ a ∈ xs ∧ wanted a
  ordered : ds.Pairwise fun a b => xs.idxOf a < xs.idxOf b

namespace FirstSeen

variable {xs ds : List α} {wanted : α → Prop}

omit [LawfulBEq α] in
theorem nodup (h : FirstSeen xs wanted ds) : ds.Nodup := by
  apply h.ordered.imp
  intro a b hlt hab
  rw [hab] at hlt
  exact Nat.lt_irrefl _ hlt

omit [LawfulBEq α] in
theorem filter (h : FirstSeen xs wanted ds) (p : α → Bool) :
    FirstSeen xs (fun a => wanted a ∧ p a = true) (ds.filter p) where
  mem_iff a := by rw [List.mem_filter, h.mem_iff, and_assoc]
  ordered := h.ordered.filter p

omit [LawfulBEq α] in
theorem congr (h : FirstSeen xs wanted ds) {wanted' : α → Prop} (hw : ∀ a, wanted a ↔ wanted' a) :
    FirstSeen xs wanted' ds where
  mem_iff a := by rw [h.mem_iff, hw]
  ordered := h.ordered

theorem append_singleton (h : FirstSeen xs (fun _ => True) ds) (a : α) :
    FirstSeen (xs ++ [a]) (fun _ => True) (if a ∈ xs then ds else ds ++ [a]) := by
  have hds : ∀ b ∈ ds, (xs ++ [a]).idxOf b = xs.idxOf b := fun b hb =>
    List.idxOf_append_of_mem ((h.mem_iff b).1 hb).1
  have hordered : ds.Pairwise fun b c => (xs ++ [a]).idxOf b < (xs ++ [a]).idxOf c := by
    apply h.ordered.imp_of_mem
    intro b c hb hc hlt
    rw [hds b hb, hds c hc]
    exact hlt
  by_cases ha : a ∈ xs
  · rw [if_pos ha]
    refine ⟨fun b => ?_, hordered⟩
    rw [h.mem_iff]
    simp only [List.mem_append, List.mem_singleton]
    constructor
    · rintro ⟨hb, -⟩
      exact ⟨.inl hb, trivial⟩
    · rintro ⟨hb | rfl, -⟩
      · exact ⟨hb, trivial⟩
      · exact ⟨ha, trivial⟩
  · rw [if_neg ha]
    refine ⟨fun b => ?_, List.pairwise_append.2 ⟨hordered, List.pairwise_singleton _ _, ?_⟩⟩
    · simp [h.mem_iff]
    · intro b hb c hc
      obtain rfl := List.mem_singleton.1 hc
      have hlt := List.idxOf_lt_length_of_mem ((h.mem_iff b).1 hb).1
      rw [hds b hb, List.idxOf_append_of_notMem ha]
      omega

end FirstSeen

theorem eraseDups_append_singleton (xs : List α) (a : α) :
    (xs ++ [a]).eraseDups = if a ∈ xs then xs.eraseDups else xs.eraseDups ++ [a] := by
  rw [List.eraseDups_append]
  by_cases ha : a ∈ xs <;> simp [List.removeAll, ha, List.eraseDups_cons]

theorem eraseDups_filter (p : α → Bool) (xs : List α) :
    (xs.filter p).eraseDups = xs.eraseDups.filter p := by
  induction xs using List.reverseRecOn with
  | nil => rfl
  | append_singleton xs a ih =>
    rw [List.filter_append, eraseDups_append_singleton]
    by_cases hp : p a = true
    · have hmem : a ∈ xs.filter p ↔ a ∈ xs := by simp [hp]
      rw [List.filter_cons_of_pos hp, List.filter_nil, eraseDups_append_singleton, ih]
      by_cases ha : a ∈ xs
      · rw [if_pos (hmem.2 ha), if_pos ha]
      · rw [if_neg (mt hmem.1 ha), if_neg ha, List.filter_append, List.filter_cons_of_pos hp,
          List.filter_nil]
    · rw [List.filter_cons_of_neg hp, List.filter_nil, List.append_nil, ih]
      by_cases ha : a ∈ xs
      · rw [if_pos ha]
      · rw [if_neg ha, List.filter_append, List.filter_cons_of_neg hp, List.filter_nil,
          List.append_nil]

theorem firstSeen_eraseDups (xs : List α) : FirstSeen xs (fun _ => True) xs.eraseDups := by
  induction xs using List.reverseRecOn with
  | nil => exact ⟨by simp, by simp⟩
  | append_singleton xs a ih =>
    rw [eraseDups_append_singleton]
    exact ih.append_singleton a

end MaxEnt
