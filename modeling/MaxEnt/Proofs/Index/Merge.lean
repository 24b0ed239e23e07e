import Mathlib.Algebra.BigOperators.Group.List.Basic
import Mathlib.Algebra.GroupWithZero.Nat
import MaxEnt.Index.Indexer
import MaxEnt.Proofs.Index.Order

namespace MaxEnt.Indexing

section Sums

variable {M : Type*} [AddCommMonoid M] {f : Row → M}

/-- The sum of a quantity over rows, each taken as often as it was seen. -/
def weigh (f : Row → M) (rows : List (Row × Nat)) : M := (rows.map fun r => r.2 • f r.1).sum

theorem weigh_once (rows : List Row) : weigh f (rows.map fun r => (r, 1)) = (rows.map f).sum := by
  rw [weigh, List.map_map]
  simp only [Function.comp_def, one_nsmul]

theorem weigh_append_cons (before after : List (Row × Nat)) (r : Row × Nat) :
    weigh f (before ++ r :: after) = weigh f before + (r.2 • f r.1 + weigh f after) := by
  rw [weigh, List.map_append, List.sum_append, List.map_cons, List.sum_cons]
  rfl

theorem weigh_eq_zero {rows : List (Row × Nat)} (h : ∀ r ∈ rows, f r.1 = 0) : weigh f rows = 0 := by
  apply List.sum_eq_zero
  intro x hx
  obtain ⟨r, hr, rfl⟩ := List.mem_map.1 hx
  rw [h r hr, nsmul_zero]

theorem weigh_countRow (hf : ∀ a b : Row, a.equals b = true → f a = f b) (r : Row)
    (rows : List (Row × Nat)) : weigh f (countRow r rows) = f r + weigh f rows := by
  cases rows with
  | nil => simp only [countRow, weigh, List.map_cons, List.sum_cons, one_nsmul]
  | cons s rows =>
    obtain ⟨s, n⟩ := s
    rw [countRow]
    by_cases h : r.equals s = true
    · rw [if_pos h]
      simp only [weigh, List.map_cons, List.sum_cons]
      rw [← hf r s h, succ_nsmul', add_assoc]
    · rw [if_neg h]
      simp only [weigh, List.map_cons, List.sum_cons, one_nsmul]

theorem weigh_merge (hf : ∀ a b : Row, a.equals b = true → f a = f b) (rows : List Row) :
    weigh f (merge rows) = (rows.map f).sum := by
  induction rows with
  | nil => rfl
  | cons r rows ih =>
    rw [List.map_cons, List.sum_cons, ← ih]
    exact weigh_countRow hf r (merge rows)

end Sums

/-- Counted rows that all are different, in order, and seen. -/
structure Strict (keepsValues : Bool) (rows : List (Row × Nat)) : Prop where
  regular : ∀ r ∈ rows, r.1.Regular keepsValues
  increasing : rows.Pairwise fun a b => a.1.key < b.1.key
  seen : ∀ r ∈ rows, 1 ≤ r.2

variable {keepsValues : Bool}

theorem mem_countRow {r : Row} {rows : List (Row × Nat)} {s : Row × Nat}
    (h : s ∈ countRow r rows) : s.1 = r ∨ s ∈ rows := by
  cases rows with
  | nil => exact .inl (congrArg Prod.fst (List.mem_singleton.1 h))
  | cons t rows =>
    obtain ⟨t, n⟩ := t
    rw [countRow] at h
    split at h
    · obtain rfl | h := List.mem_cons.1 h
      · exact .inl rfl
      · exact .inr (List.mem_cons_of_mem _ h)
    · obtain rfl | h := List.mem_cons.1 h
      · exact .inl rfl
      · exact .inr h

/-- A row that does not come after the others stays in order among them, or is the first of them. -/
theorem Strict.countRow {rows : List (Row × Nat)} (h : Strict keepsValues rows) {r : Row}
    (hr : r.Regular keepsValues) (hle : ∀ s ∈ rows, r.key ≤ s.1.key) :
    Strict keepsValues (countRow r rows) := by
  cases rows with
  | nil =>
    exact ⟨by simpa [Indexing.countRow] using hr, by simp [Indexing.countRow],
      by simp [Indexing.countRow]⟩
  | cons s rows =>
    obtain ⟨s, n⟩ := s
    obtain ⟨hs, hregular⟩ := List.forall_mem_cons.1 h.regular
    obtain ⟨hlt, hincreasing⟩ := List.pairwise_cons.1 h.increasing
    obtain ⟨hn, hseen⟩ := List.forall_mem_cons.1 h.seen
    have hequals := Row.equals_iff_key_eq hr hs
    -- Only the first row is compared. The others come after it, so `r` is none of them either.
    rw [Indexing.countRow]
    by_cases he : r.key = s.key
    · rw [if_pos (hequals.2 he)]
      refine ⟨List.forall_mem_cons.2 ⟨hr, hregular⟩, List.pairwise_cons.2 ⟨?_, hincreasing⟩,
        List.forall_mem_cons.2 ⟨by simp, hseen⟩⟩
      intro t ht
      rw [he]
      exact hlt t ht
    · rw [if_neg fun h => he (hequals.1 h)]
      have hrs : r.key < s.key := lt_of_le_of_ne (hle _ List.mem_cons_self) he
      refine ⟨List.forall_mem_cons.2 ⟨hr, h.regular⟩, List.pairwise_cons.2 ⟨?_, h.increasing⟩,
        List.forall_mem_cons.2 ⟨le_refl 1, h.seen⟩⟩
      intro t ht
      obtain rfl | ht := List.mem_cons.1 ht
      · exact hrs
      · exact hrs.trans (hlt t ht)

theorem mem_merge {rows : List Row} {s : Row × Nat} (h : s ∈ merge rows) : s.1 ∈ rows := by
  induction rows with
  | nil => simp [merge] at h
  | cons r rows ih =>
    have hcount : s ∈ countRow r (merge rows) := h
    obtain hs | hs := mem_countRow hcount
    · rw [hs]
      exact List.mem_cons_self
    · exact List.mem_cons_of_mem _ (ih hs)

theorem exists_mem_countRow {r t : Row} {rows : List (Row × Nat)}
    (h : r.key = t.key ∨ ∃ s ∈ rows, s.1.key = t.key) (hregular : ∀ s ∈ rows, s.1.Regular keepsValues)
    (hr : r.Regular keepsValues) : ∃ s ∈ countRow r rows, s.1.key = t.key := by
  cases rows with
  | nil =>
    have ht : r.key = t.key := by simpa using h
    exact ⟨(r, 1), by simp [countRow], ht⟩
  | cons s rows =>
    obtain ⟨s, n⟩ := s
    obtain ⟨hs, -⟩ := List.forall_mem_cons.1 hregular
    rw [countRow]
    split
    next he =>
      have hkey := (Row.equals_iff_key_eq hr hs).1 he
      obtain ht | ⟨u, hu, ht⟩ := h
      · exact ⟨_, List.mem_cons_self, ht⟩
      · obtain rfl | hu := List.mem_cons.1 hu
        · exact ⟨_, List.mem_cons_self, hkey.trans ht⟩
        · exact ⟨u, List.mem_cons_of_mem _ hu, ht⟩
    next =>
      obtain ht | ⟨u, hu, ht⟩ := h
      · exact ⟨_, List.mem_cons_self, ht⟩
      · exact ⟨u, List.mem_cons_of_mem _ hu, ht⟩

theorem exists_mem_merge {rows : List Row} (hregular : ∀ r ∈ rows, r.Regular keepsValues) {t : Row}
    (ht : t ∈ rows) : ∃ s ∈ merge rows, s.1.key = t.key := by
  induction rows with
  | nil => simp at ht
  | cons r rows ih =>
    obtain ⟨hr, hrows⟩ := List.forall_mem_cons.1 hregular
    refine exists_mem_countRow ?_ (fun s hs => hrows s.1 (mem_merge hs)) hr
    obtain rfl | ht := List.mem_cons.1 ht
    · exact .inl rfl
    · exact .inr (ih hrows ht)

theorem strict_merge {rows : List Row} (hregular : ∀ r ∈ rows, r.Regular keepsValues)
    (hsorted : rows.Pairwise fun a b => a.key ≤ b.key) : Strict keepsValues (merge rows) := by
  induction rows with
  | nil => exact ⟨by simp [merge], by simp [merge], by simp [merge]⟩
  | cons r rows ih =>
    obtain ⟨hr, hregular⟩ := List.forall_mem_cons.1 hregular
    obtain ⟨hle, hsorted⟩ := List.pairwise_cons.1 hsorted
    exact (ih hregular hsorted).countRow hr fun s hs => hle s.1 (mem_merge hs)

/-- Numbers have a place in the order, so the rows are sorted by merging halves. -/
theorem sorted_eq_mergeSort {rows : List Row} (h : ∀ r ∈ rows, r.Regular keepsValues) :
    sorted rows = rows.mergeSort fun a b => !b.precedes a := by
  have hnan : rows.any Row.hasNaN = false := by
    rw [List.any_eq_false]
    intro r hr
    rw [Row.hasNaN, Bool.not_eq_true, List.any_eq_false]
    intro x hx
    rw [(h r hr).numbers x hx]
    exact Bool.false_ne_true
  rw [sorted, hnan]
  rfl

theorem sorted_perm {rows : List Row} (h : ∀ r ∈ rows, r.Regular keepsValues) :
    (sorted rows).Perm rows := by
  rw [sorted_eq_mergeSort h]
  exact List.mergeSort_perm _ _

theorem pairwise_sorted {rows : List Row} (h : ∀ r ∈ rows, r.Regular keepsValues) :
    (sorted rows).Pairwise fun a b => a.key ≤ b.key := by
  have hkeys : (sorted rows).map Row.key =
      (rows.map Row.key).mergeSort fun k l => decide (k ≤ l) := by
    rw [sorted_eq_mergeSort h]
    apply List.map_mergeSort
    intro a ha b hb
    rw [Bool.eq_iff_iff, Bool.not_eq_true', ← Bool.not_eq_true,
      Row.precedes_iff_key_lt (h b hb) (h a ha), decide_eq_true_iff, not_lt]
  -- The keys are ordered linearly, which the rows themselves are only up to equality of values.
  have hordered : ((rows.map Row.key).mergeSort fun k l => decide (k ≤ l)).Pairwise
      fun k l => decide (k ≤ l) = true := by
    apply List.pairwise_mergeSort
    · intro k l m hkl hlm
      exact decide_eq_true ((of_decide_eq_true hkl).trans (of_decide_eq_true hlm))
    · intro k l
      simpa using le_total k l
  rw [← hkeys, List.pairwise_map] at hordered
  exact hordered.imp of_decide_eq_true

theorem strict_sortAndMerge {rows : List Row} (h : ∀ r ∈ rows, r.Regular keepsValues) :
    Strict keepsValues (sortAndMerge rows) :=
  strict_merge (fun r hr => h r ((sorted_perm h).mem_iff.1 hr)) (pairwise_sorted h)

theorem exists_mem_sortAndMerge {rows : List Row} (h : ∀ r ∈ rows, r.Regular keepsValues) {t : Row}
    (ht : t ∈ rows) : ∃ s ∈ sortAndMerge rows, s.1.equals t = true := by
  have hsorted : ∀ r ∈ sorted rows, r.Regular keepsValues :=
    fun r hr => h r ((sorted_perm h).mem_iff.1 hr)
  obtain ⟨s, hs, hkey⟩ := exists_mem_merge hsorted ((sorted_perm h).mem_iff.2 ht)
  exact ⟨s, hs, (Row.equals_iff_key_eq (hsorted s.1 (mem_merge hs)) (h t ht)).2 hkey⟩

theorem weigh_sortAndMerge {M : Type*} [AddCommMonoid M] {f : Row → M}
    (hf : ∀ a b : Row, a.equals b = true → f a = f b) {rows : List Row}
    (h : ∀ r ∈ rows, r.Regular keepsValues) : weigh f (sortAndMerge rows) = (rows.map f).sum := by
  rw [sortAndMerge, weigh_merge hf]
  exact ((sorted_perm h).map f).sum_eq

theorem nodup_of_strict {keepsValues : Bool} {rows : List (Row × Nat)} (h : Strict keepsValues rows) :
    rows.Nodup := by
  apply h.increasing.imp
  rintro a b hlt rfl
  exact lt_irrefl _ hlt

theorem sum_map_ite (p : Row → Prop) [DecidablePred p] (rows : List Row) :
    (rows.map fun r => if p r then 1 else 0).sum = rows.countP fun r => decide (p r) := by
  induction rows with
  | nil => rfl
  | cons r rows ih =>
    rw [List.map_cons, List.sum_cons, ih, List.countP_cons, Nat.add_comm]
    simp only [decide_eq_true_eq]

theorem snd_of_mem_sortAndMerge {keepsValues : Bool} {rows : List Row}
    (h : ∀ r ∈ rows, r.Regular keepsValues) {r : Row × Nat} (hr : r ∈ sortAndMerge rows) :
    r.2 = rows.countP fun s => decide (s.key = r.1.key) := by
  let f : Row → Nat := fun s => if s.key = r.1.key then 1 else 0
  obtain ⟨before, after, hsplit⟩ := List.append_of_mem hr
  have hincreasing := (strict_sortAndMerge h).increasing
  rw [hsplit, List.pairwise_append, List.pairwise_cons] at hincreasing
  obtain ⟨-, ⟨hafter, -⟩, hbefore⟩ := hincreasing
  -- The other rows have other keys and weigh nothing.
  have hzero : weigh f before = 0 :=
    weigh_eq_zero fun s hs => if_neg (hbefore s hs r List.mem_cons_self).ne
  have hzero' : weigh f after = 0 := weigh_eq_zero fun s hs => if_neg (hafter s hs).ne'
  have hone : f r.1 = 1 := if_pos rfl
  have hequal : ∀ a b : Row, a.equals b = true → f a = f b := by
    intro a b hab
    simp only [f, Row.key_eq_of_equals hab]
  calc r.2 = weigh f (sortAndMerge rows) := by
        rw [hsplit, weigh_append_cons, hzero, hzero', hone, zero_add, add_zero]
        exact (Nat.mul_one r.2).symm
    _ = (rows.map f).sum := weigh_sortAndMerge hequal h
    _ = rows.countP fun s => decide (s.key = r.1.key) := sum_map_ite _ rows

end MaxEnt.Indexing
