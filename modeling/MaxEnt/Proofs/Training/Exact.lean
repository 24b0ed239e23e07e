import Mathlib.Data.Real.Basic
import MaxEnt.Scalar

namespace MaxEnt

namespace Binary64

def numerator (x : Binary64) : Int := if x.isNegative then -x.ratio.1 else x.ratio.1

theorem denominator_pos (x : Binary64) : 0 < x.ratio.2 := Nat.two_pow_pos _

end Binary64

/-- Exact arithmetic: numbers among which integers and finite doubles are themselves. -/
class ExactScalar (κ : Type) extends Scalar κ, CommRing κ, NoZeroDivisors κ, CharZero κ where
  ofInt_eq (n : Int) : ofInt n = (n : κ)
  ofBinary64_eq (x : Binary64) (h : x.isFinite) : ofBinary64 x * (x.ratio.2 : κ) = (x.numerator : κ)

@[reducible] noncomputable def ExactScalar.real (exp log : ℝ → ℝ) : ExactScalar ℝ where
  ofInt n := n
  ofBinary64 x := x.numerator / x.ratio.2
  exp := exp
  log := log
  le x y := decide (x ≤ y)
  lt x y := decide (x < y)
  isNaN _ := false
  eq_zero_or_eq_zero_of_mul_eq_zero := mul_eq_zero.1
  cast_injective := Nat.cast_injective
  ofInt_eq _ := rfl
  ofBinary64_eq x _ := div_mul_cancel₀ _ (Nat.cast_ne_zero.2 x.denominator_pos.ne')

namespace Binary64

theorem eq_of_magnitude {x y : Binary64} (hn : x.isNegative = y.isNegative)
    (hm : x.magnitude = y.magnitude) : x = y := by
  have hx := x.bits.toNat_lt
  have hy := y.bits.toNat_lt
  rw [isNegative, isNegative, decide_eq_decide] at hn
  rw [magnitude, magnitude] at hm
  have hbits : x.bits.toNat = y.bits.toNat := by omega
  cases x
  cases y
  rw [mk.injEq]
  exact UInt64.toNat_inj.1 hbits

theorem numerator_eq_zero {x : Binary64} (h : x.magnitude = 0) : x.numerator = 0 := by
  have hs : x.significand = 0 := by
    rw [significand, h]
    rfl
  simp [numerator, ratio, hs]

theorem ofBinary64_eq_zero {κ : Type} [ExactScalar κ] {x : Binary64} (h : x.magnitude = 0) :
    (Scalar.ofBinary64 x : κ) = 0 := by
  have hfinite : x.isFinite := by simp [isFinite, h, infinityBits]
  have hvalue := ExactScalar.ofBinary64_eq (κ := κ) x hfinite
  have hdenominator : (x.ratio.2 : κ) ≠ 0 := Nat.cast_ne_zero.2 x.denominator_pos.ne'
  rw [numerator_eq_zero h, Int.cast_zero] at hvalue
  exact (mul_eq_zero.1 hvalue).resolve_right hdenominator

theorem eq_or_magnitude_of_equals {x y : Binary64} (h : x.equals y = true) :
    x = y ∨ x.magnitude = 0 ∧ y.magnitude = 0 := by
  have hr : x.rank = y.rank := by
    simp only [equals, Bool.and_eq_true, beq_iff_eq] at h
    exact h.2
  rw [rank, rank] at hr
  by_cases hn : x.isNegative = y.isNegative
  · have hm : x.magnitude = y.magnitude := by
      rw [hn] at hr
      split at hr <;> omega
    exact .inl (eq_of_magnitude hn hm)
  · -- of opposite signs, neither has a magnitude
    right
    rw [Bool.eq_not_of_ne hn] at hr
    cases hy : y.isNegative <;> simp only [hy, Bool.not_false, Bool.not_true, if_true,
      Bool.false_eq_true, if_false] at hr <;> omega

theorem ofBinary64_congr {κ : Type} [ExactScalar κ] {x y : Binary64} (h : x.equals y = true) :
    (Scalar.ofBinary64 x : κ) = Scalar.ofBinary64 y := by
  obtain rfl | ⟨hx, hy⟩ := eq_or_magnitude_of_equals h
  · rfl
  · rw [ofBinary64_eq_zero hx, ofBinary64_eq_zero hy]

end Binary64

end MaxEnt
