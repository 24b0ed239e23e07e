import Mathlib.Data.List.Lex
import Mathlib.Data.Prod.Lex
import Mathlib.Order.Lex
import MaxEnt.Index.Basic

namespace MaxEnt

/-- No value is missing or too many where values are kept, and all are numbers. -/
structure Row.Regular (keepsValues : Bool) (r : Row) : Prop where
  isSome_values : r.values.isSome = keepsValues
  length_values : ∀ values, r.values = some values → values.length = r.context.length
  numbers : ∀ x ∈ r.values.getD [], x.isNaN = false

/-- What rows are ordered by; both zeros are the same in it. -/
def Row.key (r : Row) : Nat ×ₗ List Nat ×ₗ List Int :=
  toLex (r.outcome, toLex (r.context, (r.values.getD []).map Binary64.rank))

namespace Binary64

theorem equals_iff {x y : Binary64} (hx : x.isNaN = false) (hy : y.isNaN = false) :
    x.equals y = true ↔ x.rank = y.rank := by
  simp [equals, hx, hy]

theorem lessThan_iff {x y : Binary64} (hx : x.isNaN = false) (hy : y.isNaN = false) :
    x.lessThan y = true ↔ x.rank < y.rank := by
  simp [lessThan, hx, hy]

end Binary64

theorem valuesEqual_iff {xs ys : List Binary64} (hx : ∀ x ∈ xs, x.isNaN = false)
    (hy : ∀ y ∈ ys, y.isNaN = false) :
    valuesEqual xs ys = true ↔ xs.map Binary64.rank = ys.map Binary64.rank := by
  induction xs generalizing ys with
  | nil => cases ys <;> simp [valuesEqual]
  | cons x xs ih =>
    cases ys with
    | nil => simp [valuesEqual]
    | cons y ys =>
      obtain ⟨hx, hxs⟩ := List.forall_mem_cons.1 hx
      obtain ⟨hy, hys⟩ := List.forall_mem_cons.1 hy
      rw [valuesEqual, Bool.and_eq_true, Binary64.equals_iff hx hy, ih hxs hys]
      simp

theorem valuesPrecede_iff {xs ys : List Binary64} (hx : ∀ x ∈ xs, x.isNaN = false)
    (hy : ∀ y ∈ ys, y.isNaN = false) :
    valuesPrecede xs ys = true ↔ xs.map Binary64.rank < ys.map Binary64.rank := by
  induction xs generalizing ys with
  | nil => cases ys <;> simp [valuesPrecede]
  | cons x xs ih =>
    cases ys with
    | nil => simp [valuesPrecede]
    | cons y ys =>
      obtain ⟨hx, hxs⟩ := List.forall_mem_cons.1 hx
      obtain ⟨hy, hys⟩ := List.forall_mem_cons.1 hy
      have heq := Binary64.equals_iff hx hy
      rw [valuesPrecede, List.map_cons, List.map_cons, List.cons_lt_cons_iff]
      by_cases hr : x.rank = y.rank
      · rw [if_pos (heq.2 hr), ih hxs hys]
        simp [hr]
      · rw [if_neg fun h => hr (heq.1 h), Binary64.lessThan_iff hx hy]
        simp [hr]

theorem map_rank_eq_of_valuesEqual {xs ys : List Binary64} (h : valuesEqual xs ys = true) :
    xs.map Binary64.rank = ys.map Binary64.rank := by
  induction xs generalizing ys with
  | nil =>
    cases ys with
    | nil => rfl
    | cons y ys => cases h
  | cons x xs ih =>
    cases ys with
    | nil => cases h
    | cons y ys =>
      obtain ⟨hxy, hrest⟩ := Bool.and_eq_true_iff.1 h
      have hrank : x.rank = y.rank := by
        simp only [Binary64.equals, Bool.and_eq_true, beq_iff_eq] at hxy
        exact hxy.2
      rw [List.map_cons, List.map_cons, hrank, ih hrest]

namespace Row

theorem outcome_eq_of_equals {a b : Row} (h : a.equals b = true) : a.outcome = b.outcome := by
  rw [equals, Bool.and_eq_true, Bool.and_eq_true, beq_iff_eq] at h
  exact h.1.1

variable {keepsValues : Bool} {a b : Row}

theorem Regular.values_cases (ha : a.Regular keepsValues) (hb : b.Regular keepsValues) :
    (a.values = none ∧ b.values = none) ∨ ∃ xs ys, a.values = some xs ∧ b.values = some ys ∧
      (∀ x ∈ xs, x.isNaN = false) ∧ ∀ y ∈ ys, y.isNaN = false := by
  have hsome := ha.isSome_values.trans hb.isSome_values.symm
  have hna := ha.numbers
  have hnb := hb.numbers
  cases hva : a.values with
  | none =>
    cases hvb : b.values with
    | none => exact .inl ⟨rfl, rfl⟩
    | some ys => simp [hva, hvb] at hsome
  | some xs =>
    cases hvb : b.values with
    | none => simp [hva, hvb] at hsome
    | some ys =>
      rw [hva] at hna
      rw [hvb] at hnb
      exact .inr ⟨xs, ys, rfl, rfl, hna, hnb⟩

theorem optionalEqual_iff (ha : a.Regular keepsValues) (hb : b.Regular keepsValues) :
    optionalEqual a.values b.values = true ↔
      (a.values.getD []).map Binary64.rank = (b.values.getD []).map Binary64.rank := by
  obtain ⟨hva, hvb⟩ | ⟨xs, ys, hva, hvb, hx, hy⟩ := ha.values_cases hb
  · simp [hva, hvb, optionalEqual]
  · rw [hva, hvb]
    exact valuesEqual_iff hx hy

theorem optionalPrecede_iff (ha : a.Regular keepsValues) (hb : b.Regular keepsValues) :
    optionalPrecede a.values b.values = true ↔
      (a.values.getD []).map Binary64.rank < (b.values.getD []).map Binary64.rank := by
  obtain ⟨hva, hvb⟩ | ⟨xs, ys, hva, hvb, hx, hy⟩ := ha.values_cases hb
  · simp [hva, hvb, optionalPrecede]
  · rw [hva, hvb]
    exact valuesPrecede_iff hx hy

theorem equals_iff_key_eq (ha : a.Regular keepsValues) (hb : b.Regular keepsValues) :
    a.equals b = true ↔ a.key = b.key := by
  rw [equals, Bool.and_eq_true, Bool.and_eq_true, optionalEqual_iff ha hb, key, key]
  simp [and_assoc]

theorem precedes_iff_key_lt (ha : a.Regular keepsValues) (hb : b.Regular keepsValues) :
    a.precedes b = true ↔ a.key < b.key := by
  have hvalues := optionalPrecede_iff ha hb
  rw [key, key, Prod.Lex.toLex_lt_toLex, Prod.Lex.toLex_lt_toLex, ← hvalues]
  simp [precedes]

theorem key_eq_of_equals {a b : Row} (h : a.equals b = true) : a.key = b.key := by
  rw [equals, Bool.and_eq_true, Bool.and_eq_true, beq_iff_eq, beq_iff_eq] at h
  obtain ⟨⟨houtcome, hcontext⟩, hvalues⟩ := h
  have hranks : (a.values.getD []).map Binary64.rank = (b.values.getD []).map Binary64.rank := by
    cases hva : a.values with
    | none =>
      cases hvb : b.values with
      | none => rfl
      | some ys => simp [hva, hvb, optionalEqual] at hvalues
    | some xs =>
      cases hvb : b.values with
      | none => simp [hva, hvb, optionalEqual] at hvalues
      | some ys =>
        rw [hva, hvb] at hvalues
        exact map_rank_eq_of_valuesEqual hvalues
  rw [key, key, houtcome, hcontext, hranks]

theorem eq_of_key_eq {a b : Row} (ha : a.Regular false) (hb : b.Regular false) (h : a.key = b.key) :
    a = b := by
  have hva := Option.isNone_iff_eq_none.1 (Option.isSome_eq_false_iff.1 ha.isSome_values)
  have hvb := Option.isNone_iff_eq_none.1 (Option.isSome_eq_false_iff.1 hb.isSome_values)
  have houtcome := congrArg (fun k => (ofLex k).1) h
  have hcontext := congrArg (fun k => (ofLex (ofLex k).2).1) h
  obtain ⟨outcome, context, values⟩ := a
  obtain ⟨outcome', context', values'⟩ := b
  cases hva
  cases hvb
  cases houtcome
  cases hcontext
  rfl

end Row

end MaxEnt
