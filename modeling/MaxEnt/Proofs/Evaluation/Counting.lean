import Mathlib
import MaxEnt.Evaluation.Distribution
import MaxEnt.Proofs.Index.FirstSeen
import MaxEnt.Proofs.Training.Ordered

namespace MaxEnt

namespace Text

theorem sorted_perm (ts : List Text) : (sorted ts).Perm ts.eraseDups := List.mergeSort_perm _ _

theorem mem_sorted {t : Text} {ts : List Text} : t ∈ sorted ts ↔ t ∈ ts := by
  rw [(sorted_perm ts).mem_iff, List.mem_eraseDups]

theorem nodup_sorted (ts : List Text) : (sorted ts).Nodup :=
  (sorted_perm ts).nodup_iff.2 (firstSeen_eraseDups ts).nodup

theorem precedesOrEquals_iff {s t : Text} : precedesOrEquals s t = true ↔ s ≤ t := by
  rw [precedesOrEquals, Bool.not_eq_true', decide_eq_false_iff_not, not_lt]

theorem pairwise_sorted (ts : List Text) : (sorted ts).Pairwise (· < ·) := by
  have hle : (sorted ts).Pairwise fun s t => precedesOrEquals s t = true := by
    apply List.pairwise_mergeSort
    · intro r s t hrs hst
      rw [precedesOrEquals_iff] at *
      exact hrs.trans hst
    · intro s t
      rw [Bool.or_eq_true, precedesOrEquals_iff, precedesOrEquals_iff]
      exact le_total s t
  exact (hle.and (nodup_sorted ts)).imp fun h => lt_of_le_of_ne (precedesOrEquals_iff.1 h.1) h.2

end Text

section

variable {α β : Type} [BEq β] [LawfulBEq β]

/-- What is counted value by value is counted in full when the values are distinct and none is left
out. -/
theorem sum_map_countP {values : List β} (hnodup : values.Nodup) (p : α → Bool) (f : α → β)
    {xs : List α} (h : ∀ x ∈ xs, p x = true → f x ∈ values) :
    (values.map fun v => xs.countP fun x => p x && f x == v).sum = xs.countP p := by
  classical
  induction xs with
  | nil => simp
  | cons x xs ih =>
    obtain ⟨hx, hxs⟩ := List.forall_mem_cons.1 h
    have hone : (values.map fun v => if (p x && f x == v) = true then 1 else 0).sum =
        if p x = true then 1 else 0 := by
      by_cases hp : p x = true
      · simp only [hp, Bool.true_and, beq_iff_eq, if_true]
        rw [← List.sum_toFinset _ hnodup, Finset.sum_ite_eq, if_pos (List.mem_toFinset.2 (hx hp))]
      · simp [hp]
    simp only [List.countP_cons, List.sum_map_add, ih hxs, hone]

theorem sum_map_count {values xs : List β} (hnodup : values.Nodup) (h : ∀ x ∈ xs, x ∈ values) :
    (values.map xs.count).sum = xs.length := by
  have hsum := sum_map_countP hnodup (fun _ => true) id fun x hx _ => h x hx
  simpa [List.count] using hsum

end

theorem sum_map_eq_of_subset {α κ : Type} [DecidableEq α] [AddCommMonoid κ] {xs ys : List α}
    (hx : xs.Nodup) (hy : ys.Nodup) (hsub : xs ⊆ ys) {f : α → κ} (h : ∀ y ∈ ys, y ∉ xs → f y = 0) :
    (xs.map f).sum = (ys.map f).sum := by
  rw [← List.sum_toFinset f hx, ← List.sum_toFinset f hy]
  apply Finset.sum_subset
  · intro x hmem
    exact List.mem_toFinset.2 (hsub (List.mem_toFinset.1 hmem))
  · intro y hmem hnot
    exact h y (List.mem_toFinset.1 hmem) (mt List.mem_toFinset.2 hnot)

namespace Distribution

theorem total_eq_sum (d : Distribution) : d.total = (d.counts.map Prod.snd).sum := rfl

theorem total_ofLabels (labels : List Text) : (ofLabels labels).total = labels.length := by
  rw [total_eq_sum, ofLabels, List.map_map]
  exact sum_map_count (Text.nodup_sorted labels) fun _ => Text.mem_sorted.2

theorem lookup_counts (labels : List Text) (label : Text) :
    ((ofLabels labels).counts.lookup label).getD 0 = labels.count label := by
  by_cases h : label ∈ labels
  · rw [ofLabels, List.lookup_graph _ (Text.mem_sorted.2 h), Option.getD_some]
  · have hnone : (ofLabels labels).counts.lookup label = none := by
      rw [List.lookup_eq_none_iff]
      intro q hq
      obtain ⟨other, hother, rfl⟩ := List.mem_map.1 hq
      exact bne_iff_ne.2 fun heq => h (heq ▸ Text.mem_sorted.1 hother)
    rw [hnone, Option.getD_none, List.count_eq_zero_of_not_mem h]

theorem sum_percentages {κ : Type} [LinearOrder κ] [OrderedScalar κ] (d : Distribution)
    (h : d.total ≠ 0) : ((d.percentages κ).map Prod.snd).sum = 100 := by
  have hne : (d.total : κ) ≠ 0 := Nat.cast_ne_zero.2 h
  apply mul_right_cancel₀ hne
  rw [percentages, List.map_map, ← List.sum_map_mul_right]
  have hshare : ∀ q : Text × Nat, (Scalar.ofInt q.2 / Scalar.ofInt d.total * Scalar.ofInt 100 : κ) * d.total =
      100 * q.2 := by
    intro q
    simp only [ExactScalar.ofInt_eq, Int.cast_natCast]
    rw [mul_right_comm, OrderedScalar.div_mul_cancel _ hne, mul_comm]
    norm_num
  simp only [Function.comp_def, hshare]
  rw [List.sum_map_mul_left, total_eq_sum, Nat.cast_list_sum, List.map_map]
  rfl

end Distribution

end MaxEnt
