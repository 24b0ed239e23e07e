import Mathlib
import MaxEnt.Proofs.Binary64.Rounding
import MaxEnt.Proofs.Training.Observed

namespace MaxEnt

/-- Exact arithmetic in an ordered field, in which comparisons are those of the order. -/
class OrderedScalar (κ : Type) [LinearOrder κ] extends ExactScalar κ, IsStrictOrderedRing κ where
  le_eq (x y : κ) : Scalar.le x y = decide (x ≤ y)
  lt_eq (x y : κ) : Scalar.lt x y = decide (x < y)
  isNaN_eq (x : κ) : Scalar.isNaN x = false
  div_mul_cancel (x : κ) {y : κ} (h : y ≠ 0) : x / y * y = x

@[reducible] noncomputable def OrderedScalar.real (exp log : ℝ → ℝ) : OrderedScalar ℝ where
  toExactScalar := .real exp log
  toIsStrictOrderedRing := inferInstanceAs (IsStrictOrderedRing ℝ)
  le_eq _ _ := rfl
  lt_eq _ _ := rfl
  isNaN_eq _ := rfl
  div_mul_cancel x _ h := div_mul_cancel₀ x h

namespace Binary64

variable {κ : Type} [LinearOrder κ] [OrderedScalar κ] {x : Binary64}

theorem zero_lessThan_iff (hx : x.isFinite = true) :
    zero.lessThan x = true ↔ x.isNegative = false ∧ x.magnitude ≠ 0 := by
  rw [isFinite, decide_eq_true_eq] at hx
  have hnumber : x.isNaN = false := by
    rw [isNaN, decide_eq_false_iff_not]
    omega
  have hzero : zero.rank = 0 ∧ zero.isNaN = false := by decide
  rw [lessThan, hzero.1, hzero.2, hnumber, rank]
  cases x.isNegative
  · simp
    omega
  · simp

theorem lessThan_zero_iff (hx : x.isFinite = true) :
    x.lessThan zero = true ↔ x.isNegative = true ∧ x.magnitude ≠ 0 := by
  rw [isFinite, decide_eq_true_eq] at hx
  have hnumber : x.isNaN = false := by
    rw [isNaN, decide_eq_false_iff_not]
    omega
  have hzero : zero.rank = 0 ∧ zero.isNaN = false := by decide
  rw [lessThan, hzero.1, hzero.2, hnumber, rank]
  cases x.isNegative
  · simp
  · simp
    omega

theorem zero_lt_ofBinary64_iff (hx : x.isFinite = true) :
    0 < (Scalar.ofBinary64 x : κ) ↔ zero.lessThan x = true := by
  have hvalue := ExactScalar.ofBinary64_eq (κ := κ) x hx
  have hden : (0 : κ) < x.ratio.2 := Nat.cast_pos.2 x.denominator_pos
  rw [← mul_pos_iff_of_pos_right hden, hvalue, Int.cast_pos, zero_lessThan_iff hx, numerator]
  by_cases hm : x.magnitude = 0
  · have hnum := numerator_eq_zero hm
    rw [numerator] at hnum
    rw [hnum]
    simp [hm]
  · have hpos := ratio_num_pos hm
    cases x.isNegative
    · simp [hm, hpos]
    · simp [hm]

theorem zero_le_ofBinary64 (hx : x.isFinite = true) (h : x.lessThan zero = false) :
    0 ≤ (Scalar.ofBinary64 x : κ) := by
  by_cases hm : x.magnitude = 0
  · rw [ofBinary64_eq_zero hm]
  · have hsign : x.isNegative = false := by
      rw [Bool.eq_false_iff]
      intro hn
      rw [(lessThan_zero_iff hx).2 ⟨hn, hm⟩] at h
      cases h
    exact ((zero_lt_ofBinary64_iff hx).2 ((zero_lessThan_iff hx).2 ⟨hsign, hm⟩)).le

end Binary64

theorem sum_pos_iff {κ : Type} [LinearOrder κ] [OrderedScalar κ] {xs : List κ}
    (h : ∀ x ∈ xs, 0 ≤ x) : 0 < xs.sum ↔ ∃ x ∈ xs, 0 < x := by
  constructor
  · intro hpos
    by_contra hnone
    push Not at hnone
    have hzero : xs.sum = 0 := List.sum_eq_zero fun x hx => le_antisymm (hnone x hx) (h x hx)
    exact hpos.ne' hzero
  · rintro ⟨x, hx, hpos⟩
    exact hpos.trans_le (List.single_le_sum h x hx)

namespace Scalar

section

variable {κ : Type} [Scalar κ]

theorem greater_eq_or (x y : κ) : greater x y = x ∨ greater x y = y := by
  rw [greater]
  split
  · exact .inl rfl
  · exact .inr rfl

theorem greatest_mem {xs : List κ} (h : xs ≠ []) : greatest xs ∈ xs := by
  have hfold : ∀ (xs : List κ) (top : κ), xs.foldl greater top ∈ top :: xs := by
    intro xs
    induction xs with
    | nil => exact fun top => List.mem_singleton_self top
    | cons x xs ih =>
      intro top
      obtain hmem | hmem := List.mem_cons.1 (ih (greater top x))
      · rw [List.foldl_cons, hmem]
        rcases greater_eq_or top x with htop | hx
        · rw [htop]
          exact List.mem_cons_self
        · rw [hx]
          exact List.mem_cons_of_mem _ List.mem_cons_self
      · exact List.mem_cons_of_mem _ (List.mem_cons_of_mem _ hmem)
  cases xs with
  | nil => exact absurd rfl h
  | cons x xs => exact hfold xs x

/-- What scores are exponentiated to before they are divided by their sum. -/
def shares (scores : List κ) : List κ := scores.map fun s => exp (s - greatest scores)

def whole (scores : List κ) : κ := sum (shares scores)

theorem softmax_eq (scores : List κ) : softmax scores = (shares scores).map (· / whole scores) := rfl

end

variable {κ : Type} [LinearOrder κ] [OrderedScalar κ]

theorem sum_eq_sum (xs : List κ) : sum xs = xs.sum := List.sum_eq_foldl.symm

theorem greater_eq_max (x y : κ) : greater x y = max x y := by
  rw [greater, OrderedScalar.le_eq, OrderedScalar.isNaN_eq, Bool.or_false]
  by_cases h : y ≤ x
  · rw [if_pos (decide_eq_true h), max_eq_left h]
  · rw [if_neg (mt of_decide_eq_true h), max_eq_right (le_of_not_ge h)]

/-- The greatest score has a share of one, and the others' are not negative. -/
theorem one_le_whole (hexp : ∀ x : κ, 0 < exp x) (hone : exp (0 : κ) = 1) {scores : List κ}
    (h : scores ≠ []) : 1 ≤ whole scores := by
  have htop : (1 : κ) ∈ shares scores := by
    refine List.mem_map.2 ⟨greatest scores, greatest_mem h, ?_⟩
    rw [sub_self, hone]
  have hshares : ∀ x ∈ shares scores, 0 ≤ x := List.forall_mem_map.2 fun s _ => (hexp _).le
  rw [whole, sum_eq_sum]
  exact List.single_le_sum hshares 1 htop

end Scalar

namespace Scaling

variable {κ : Type} [LinearOrder κ] [OrderedScalar κ]

theorem tiny_pos : 0 < (tiny : κ) := (Binary64.zero_lt_ofBinary64_iff (by decide)).2 (by decide)

theorem greater_tiny_pos (x : κ) : 0 < Scalar.greater x tiny := by
  rw [Scalar.greater_eq_max]
  exact tiny_pos.trans_le (le_max_right _ _)

theorem greatestMass_pos (examples : List (Example κ)) : 0 < greatestMass examples := by
  rw [greatestMass]
  split
  · exact zero_lt_one
  · dsimp only
    split
    · exact zero_lt_one
    · rename_i hpositive
      rw [OrderedScalar.le_eq, decide_eq_true_eq, not_le] at hpositive
      exact hpositive

end Scaling

end MaxEnt
