import Mathlib
import MaxEnt.Proofs.Model.Scores
import MaxEnt.Proofs.Training.Ordered

namespace MaxEnt

namespace Scalar

section

variable {κ : Type} [Scalar κ]

theorem placeOfGreatestFrom_lt {place next : Nat} (h : place < next) (x : κ) (xs : List κ) :
    placeOfGreatestFrom place x next xs < next + xs.length := by
  induction xs generalizing place x next with
  | nil => exact h
  | cons y ys ih =>
    rw [placeOfGreatestFrom, List.length_cons, ← Nat.add_assoc, Nat.add_right_comm]
    split
    · exact ih (Nat.lt_succ_self next) y
    · exact ih (Nat.lt_succ_of_lt h) x

theorem exists_placeOfGreatest {xs : List κ} (h : xs ≠ []) :
    ∃ place, placeOfGreatest? xs = some place ∧ place < xs.length := by
  cases xs with
  | nil => exact absurd rfl h
  | cons x xs =>
    refine ⟨_, rfl, ?_⟩
    rw [List.length_cons, Nat.add_comm]
    exact placeOfGreatestFrom_lt Nat.zero_lt_one x xs

end

variable {κ : Type} [LinearOrder κ]

/-- At the place stands the greatest number, and all before it are smaller. -/
structure IsFirstGreatest (xs : List κ) (place : Nat) (x : κ) : Prop where
  getElem? : xs[place]? = some x
  le : ∀ y ∈ xs, y ≤ x
  lt : ∀ y ∈ xs.take place, y < x

namespace IsFirstGreatest

variable {xs : List κ} {place : Nat} {x y : κ}

theorem lt_length (h : IsFirstGreatest xs place x) : place < xs.length :=
  (List.getElem?_eq_some_iff.1 h.getElem?).1

theorem append_greater (h : IsFirstGreatest xs place x) (hy : x < y) :
    IsFirstGreatest (xs ++ [y]) xs.length y where
  getElem? := List.getElem?_concat_length
  le := by
    intro z hz
    obtain hz | hz := List.mem_append.1 hz
    · exact (h.le z hz).trans hy.le
    · exact (List.mem_singleton.1 hz).le
  lt := by
    intro z hz
    rw [List.take_left' rfl] at hz
    exact (h.le z hz).trans_lt hy

theorem append_le (h : IsFirstGreatest xs place x) (hy : y ≤ x) :
    IsFirstGreatest (xs ++ [y]) place x where
  getElem? := by rw [List.getElem?_append_left h.lt_length, h.getElem?]
  le := by
    intro z hz
    obtain hz | hz := List.mem_append.1 hz
    · exact h.le z hz
    · exact List.mem_singleton.1 hz ▸ hy
  lt := by
    rw [List.take_append_of_le_length h.lt_length.le]
    exact h.lt

end IsFirstGreatest

variable [OrderedScalar κ]

theorem exceeds_iff {x y : κ} : exceeds y x = true ↔ x < y := by
  rw [exceeds, OrderedScalar.isNaN_eq, OrderedScalar.isNaN_eq, OrderedScalar.lt_eq, Bool.not_false,
    Bool.true_and, Bool.false_or, decide_eq_true_iff]

/-- The search goes through the numbers with the first greatest of those seen before. -/
theorem isFirstGreatest_from {seen : List κ} {place : Nat} {x : κ} (h : IsFirstGreatest seen place x)
    (xs : List κ) :
    ∃ y, IsFirstGreatest (seen ++ xs) (placeOfGreatestFrom place x seen.length xs) y := by
  induction xs generalizing seen place x with
  | nil => exact ⟨x, by rwa [List.append_nil]⟩
  | cons y ys ih =>
    rw [placeOfGreatestFrom, ← List.singleton_append, ← List.append_assoc]
    have hlength : seen.length + 1 = (seen ++ [y]).length := by simp
    rw [hlength]
    by_cases hy : x < y
    · rw [if_pos (exceeds_iff.2 hy)]
      exact ih (h.append_greater hy)
    · rw [if_neg (mt exceeds_iff.1 hy)]
      exact ih (h.append_le (not_lt.1 hy))

theorem isFirstGreatest_placeOfGreatest {xs : List κ} (h : xs ≠ []) :
    ∃ place x, placeOfGreatest? xs = some place ∧ IsFirstGreatest xs place x := by
  cases xs with
  | nil => exact absurd rfl h
  | cons x xs =>
    have hfirst : IsFirstGreatest [x] 0 x := ⟨rfl, by simp, by simp⟩
    obtain ⟨y, hy⟩ := isFirstGreatest_from hfirst xs
    exact ⟨_, y, rfl, hy⟩

end Scalar

namespace Model

section

variable {κ : Type} [Scalar κ]

omit [Scalar κ] in
theorem ne_nil_of_length {m : Model κ} {ps : List κ} (h : ps.length = m.labels.length) : ps ≠ [] := by
  rintro rfl
  have htwo := m.two_le
  rw [List.length_nil] at h
  omega

theorem exists_best {m : Model κ} {ps : List κ} (h : ps.length = m.labels.length) :
    ∃ label ∈ m.labels, m.best ps = .ok label := by
  obtain ⟨place, hplace, hlt⟩ := Scalar.exists_placeOfGreatest (ne_nil_of_length h)
  have hlabel := List.getElem?_eq_getElem (h ▸ hlt)
  refine ⟨_, List.getElem_mem (h ▸ hlt), ?_⟩
  rw [best, hplace]
  simp only [hlabel]

end

theorem best_eq {κ : Type} [LinearOrder κ] [OrderedScalar κ] {m : Model κ} {ps : List κ}
    (h : ps.length = m.labels.length) :
    ∃ place p label, Scalar.IsFirstGreatest ps place p ∧ m.labels[place]? = some label ∧
      m.best ps = .ok label := by
  obtain ⟨place, p, hplace, hfirst⟩ := Scalar.isFirstGreatest_placeOfGreatest (ne_nil_of_length h)
  have hlabel := List.getElem?_eq_getElem (h ▸ hfirst.lt_length)
  refine ⟨place, p, _, hfirst, hlabel, ?_⟩
  rw [best, hplace]
  simp only [hlabel]

end Model

end MaxEnt
