import Mathlib.Algebra.Order.Field.Power
import Mathlib.Data.Int.Log
import Mathlib.Data.Rat.Floor
import Mathlib.Tactic.FieldSimp
import Mathlib.Tactic.NormNum
import Mathlib.Tactic.Positivity
import Mathlib.Tactic.Ring
import MaxEnt.Binary64.Rounding

namespace MaxEnt

theorem roundHalfEven_mul (num den : Nat) {k : Nat} (hk : 0 < k) :
    roundHalfEven (num * k) (den * k) = roundHalfEven num den := by
  have hlt : 2 * (num % den * k) < den * k ↔ 2 * (num % den) < den := by
    rw [← Nat.mul_assoc, Nat.mul_lt_mul_right hk]
  have heq : 2 * (num % den * k) = den * k ↔ 2 * (num % den) = den := by
    rw [← Nat.mul_assoc, Nat.mul_left_inj hk.ne']
  simp only [roundHalfEven, Nat.mul_div_mul_right _ _ hk, Nat.mul_mod_mul_right, hlt, heq]

theorem roundHalfEven_of_mul (n : Nat) {den : Nat} (hden : 0 < den) :
    roundHalfEven (n * den) den = n := by
  have hlt : 2 * (n * den % den) < den := by rw [Nat.mul_mod_left]; exact hden
  rw [roundHalfEven, if_pos hlt, Nat.mul_div_cancel n hden]

section ScaleRatio

variable {base num den : Nat}

theorem scaleRatio_pos (hbase : 0 < base) (hden : 0 < den) (k : Int) :
    0 < (scaleRatio base num den k).2 := Nat.mul_pos hden (Nat.pow_pos hbase)

theorem scaleRatio_value (hbase : 0 < base) (k : Int) :
    ((scaleRatio base num den k).1 : ℚ) / (scaleRatio base num den k).2 =
      num / den * (base : ℚ) ^ k := by
  have hb : (base : ℚ) ≠ 0 := by exact_mod_cast hbase.ne'
  have hk : (base : ℚ) ^ k = (base : ℚ) ^ k.toNat / (base : ℚ) ^ (-k).toNat := by
    rw [← zpow_natCast, ← zpow_natCast, ← zpow_sub₀ hb]
    congr 1
    omega
  have hscale : scaleRatio base num den k = (num * base ^ k.toNat, den * base ^ (-k).toNat) := rfl
  rw [hscale, hk]
  push_cast
  exact mul_div_mul_comm _ _ _ _

theorem scaleRatio_mul (k : Nat) (e : Int) :
    scaleRatio base (num * k) (den * k) e =
      ((scaleRatio base num den e).1 * k, (scaleRatio base num den e).2 * k) := by
  simp only [scaleRatio, Prod.mk.injEq]
  constructor <;> ring

end ScaleRatio

namespace Binary64

theorem log_div_bounds {num den : Nat} (hnum : 0 < num) (hden : 0 < den) :
    (num.log2 : Int) - den.log2 - 1 ≤ Int.log 2 ((num : ℚ) / den) ∧
      Int.log 2 ((num : ℚ) / den) < (num.log2 : Int) - den.log2 + 1 := by
  have hd : (0 : ℚ) < den := by exact_mod_cast hden
  have hq : (0 : ℚ) < num / den := by positivity
  have hnumLow : (2 : ℚ) ^ (num.log2 : Int) ≤ num := by
    rw [zpow_natCast]
    exact_mod_cast Nat.log2_self_le hnum.ne'
  have hnumHigh : (num : ℚ) < 2 ^ ((num.log2 : Int) + 1) := by
    have h : (num : ℚ) < 2 ^ (num.log2 + 1) := by exact_mod_cast Nat.lt_log2_self
    exact_mod_cast h
  have hdenLow : (2 : ℚ) ^ (den.log2 : Int) ≤ den := by
    rw [zpow_natCast]
    exact_mod_cast Nat.log2_self_le hden.ne'
  have hdenHigh : (den : ℚ) < 2 ^ ((den.log2 : Int) + 1) := by
    have h : (den : ℚ) < 2 ^ (den.log2 + 1) := by exact_mod_cast Nat.lt_log2_self
    exact_mod_cast h
  constructor
  · rw [← Int.zpow_le_iff_le_log (by decide) hq, Nat.cast_ofNat, le_div_iff₀ hd]
    calc (2 : ℚ) ^ ((num.log2 : Int) - den.log2 - 1) * den
        ≤ 2 ^ ((num.log2 : Int) - den.log2 - 1) * 2 ^ ((den.log2 : Int) + 1) := by gcongr
      _ = 2 ^ (num.log2 : Int) := by
        rw [← zpow_add₀ (by norm_num)]
        congr 1
        ring
      _ ≤ num := hnumLow
  · rw [← Int.lt_zpow_iff_log_lt (by decide) hq, Nat.cast_ofNat, div_lt_iff₀ hd]
    calc (num : ℚ) < 2 ^ ((num.log2 : Int) + 1) := hnumHigh
      _ = 2 ^ ((num.log2 : Int) - den.log2 + 1) * 2 ^ (den.log2 : Int) := by
        rw [← zpow_add₀ (by norm_num)]
        congr 1
        ring
      _ ≤ 2 ^ ((num.log2 : Int) - den.log2 + 1) * den := by gcongr

theorem lastPlace_eq {num den : Nat} (hnum : 0 < num) (hden : 0 < den) :
    lastPlace num den = max (Int.log 2 ((num : ℚ) / den) - 52) (-1074) := by
  have hq : (0 : ℚ) < num / den := by
    have hn : (0 : ℚ) < num := by exact_mod_cast hnum
    have hd : (0 : ℚ) < den := by exact_mod_cast hden
    positivity
  obtain ⟨hlow, hhigh⟩ := log_div_bounds hnum hden
  -- The guess from the numbers of bits is right or one too high; the quotient tells which.
  let p : Int := (num.log2 : Int) - den.log2 - 52
  have hquotient : (scaleRatio 2 num den (-p)).1 / (scaleRatio 2 num den (-p)).2 < fractions ↔
      Int.log 2 ((num : ℚ) / den) < p + 52 := by
    have hpos : 0 < (scaleRatio 2 num den (-p)).2 := scaleRatio_pos (by decide) hden _
    have hposq : (0 : ℚ) < (scaleRatio 2 num den (-p)).2 := by exact_mod_cast hpos
    have hvalue : ((scaleRatio 2 num den (-p)).1 : ℚ) / (scaleRatio 2 num den (-p)).2 =
        num / den * (2 : ℚ) ^ (-p) := scaleRatio_value (by decide) (-p)
    rw [Nat.div_lt_iff_lt_mul hpos, ← Int.lt_zpow_iff_log_lt (by decide) hq,
      ← Nat.cast_lt (α := ℚ), Nat.cast_mul, ← div_lt_iff₀ hposq, hvalue, zpow_neg, ← div_eq_mul_inv,
      div_lt_iff₀ (by positivity), add_comm p, zpow_add₀ (by norm_num)]
    norm_num [fractions]
  have hplace : lastPlace num den =
      max (if (scaleRatio 2 num den (-p)).1 / (scaleRatio 2 num den (-p)).2 < fractions then p - 1
        else p) (-1074) := rfl
  rw [hplace]
  congr 1
  split
  · rename_i h
    have := hquotient.1 h
    omega
  · rename_i h
    have := mt hquotient.2 h
    omega

theorem ofRatio_eq {num : Nat} (h : num ≠ 0) (negative : Bool) (den : Nat) :
    ofRatio negative num den = ofMagnitude negative
      (min ((lastPlace num den + 1074).toNat * fractions +
        roundHalfEven (scaleRatio 2 num den (-lastPlace num den)).1
          (scaleRatio 2 num den (-lastPlace num den)).2) infinityBits) := by
  rw [ofRatio, if_neg h]

theorem ofRatio_mul (negative : Bool) (num : Nat) {den k : Nat} (hden : 0 < den) (hk : 0 < k) :
    ofRatio negative (num * k) (den * k) = ofRatio negative num den := by
  by_cases hnum : num = 0
  · simp [ofRatio, hnum]
  · have hpos : 0 < num := Nat.pos_of_ne_zero hnum
    have hplace : lastPlace (num * k) (den * k) = lastPlace num den := by
      have hkq : (k : ℚ) ≠ 0 := by exact_mod_cast hk.ne'
      rw [lastPlace_eq (Nat.mul_pos hpos hk) (Nat.mul_pos hden hk), lastPlace_eq hpos hden,
        Nat.cast_mul, Nat.cast_mul, mul_div_mul_right _ _ hkq]
    rw [ofRatio_eq (Nat.mul_ne_zero hnum hk.ne'), ofRatio_eq hnum, hplace, scaleRatio_mul,
      roundHalfEven_mul _ _ hk]

theorem ofRatio_congr (negative : Bool) {num den num' den' : Nat} (hden : 0 < den) (hden' : 0 < den')
    (h : num * den' = num' * den) : ofRatio negative num den = ofRatio negative num' den' :=
  calc ofRatio negative num den = ofRatio negative (num * den') (den * den') :=
        (ofRatio_mul negative num hden hden').symm
    _ = ofRatio negative (num' * den) (den' * den) := by rw [h, Nat.mul_comm den]
    _ = ofRatio negative num' den' := ofRatio_mul negative num' hden' hden

theorem ofMagnitude_magnitude (x : Binary64) : ofMagnitude x.isNegative x.magnitude = x := by
  obtain ⟨bits⟩ := x
  have hlt : bits.toNat < 2 ^ 64 := bits.toNat_lt
  simp only [ofMagnitude, isNegative, magnitude, decide_eq_true_eq, mk.injEq]
  have hnat : (if 0x8000000000000000 ≤ bits.toNat then 0x8000000000000000 else 0) +
      bits.toNat % 0x8000000000000000 = bits.toNat := by
    split <;> omega
  rw [hnat, UInt64.ofNat_toNat]

theorem magnitude_ofMagnitude {negative : Bool} {m : Nat} (h : m < 2 ^ 63) :
    (ofMagnitude negative m).magnitude = m := by
  rw [magnitude, ofMagnitude, UInt64.toNat_ofNat']
  cases negative <;> simp <;> omega

theorem roundHalfEven_le (num den : Nat) : roundHalfEven num den ≤ num / den + 1 := by
  unfold roundHalfEven
  dsimp only
  split
  · omega
  · split <;> omega

theorem scaled_lt {num den : Nat} (hnum : 0 < num) (hden : 0 < den) :
    (scaleRatio 2 num den (-lastPlace num den)).1 / (scaleRatio 2 num den (-lastPlace num den)).2 <
      2 * fractions := by
  have hplace := lastPlace_eq hnum hden
  generalize lastPlace num den = p at hplace ⊢
  have hpos : 0 < (scaleRatio 2 num den (-p)).2 := scaleRatio_pos (by decide) hden _
  have hposq : (0 : ℚ) < (scaleRatio 2 num den (-p)).2 := by exact_mod_cast hpos
  rw [Nat.div_lt_iff_lt_mul hpos, ← Nat.cast_lt (α := ℚ), Nat.cast_mul, ← div_lt_iff₀ hposq,
    scaleRatio_value (by decide) (-p), zpow_neg, ← div_eq_mul_inv, div_lt_iff₀ (by positivity)]
  have hlog : Int.log 2 ((num : ℚ) / den) + 1 ≤ 53 + p := by omega
  calc (num : ℚ) / den < (2 : ℚ) ^ (Int.log 2 ((num : ℚ) / den) + 1) :=
        Int.lt_zpow_succ_log_self (b := 2) (by decide) _
    _ ≤ 2 ^ (53 + p) := zpow_le_zpow_right₀ (by norm_num) hlog
    _ = ((2 * fractions : ℕ) : ℚ) * ((2 : ℕ) : ℚ) ^ p := by
      rw [zpow_add₀ (by norm_num)]
      norm_num [fractions]

theorem isFinite_ofInt {n : Nat} (h : n < 2 ^ 63) : (ofInt n).isFinite = true := by
  have hint : ofInt n = ofRatio false n 1 := by
    rw [ofInt, Int.natAbs_natCast, decide_eq_false (by omega)]
  by_cases hn : n = 0
  · subst hn
    decide
  · have hpos : 0 < n := Nat.pos_of_ne_zero hn
    have hplace : lastPlace n 1 ≤ 10 := by
      have hlog : Int.log 2 ((n : ℚ) / (1 : ℕ)) < 63 := by
        rw [Nat.cast_one, div_one, ← Int.lt_zpow_iff_log_lt (by decide) (by exact_mod_cast hpos)]
        exact_mod_cast h
      rw [lastPlace_eq hpos Nat.one_pos]
      omega
    have hscaled := scaled_lt hpos Nat.one_pos
    have hround := roundHalfEven_le (scaleRatio 2 n 1 (-lastPlace n 1)).1
      (scaleRatio 2 n 1 (-lastPlace n 1)).2
    have hmul := Nat.mul_le_mul_right fractions (show (lastPlace n 1 + 1074).toNat ≤ 1084 by omega)
    rw [hint, ofRatio_eq hn, isFinite, decide_eq_true_eq, magnitude_ofMagnitude]
    · simp only [fractions, infinityBits] at *
      omega
    · simp only [fractions, infinityBits] at *
      omega
section Exact

variable {x : Binary64}

theorem ratio_den_pos (x : Binary64) : 0 < x.ratio.2 := Nat.pow_pos (by decide)

theorem significand_pos (h : x.magnitude ≠ 0) : 0 < x.significand := by
  unfold significand
  split
  · omega
  · exact Nat.add_pos_left (by decide) _

theorem significand_lt (x : Binary64) : x.significand < 2 * fractions := by
  have hmod : x.magnitude % fractions < fractions := Nat.mod_lt _ (by decide)
  unfold significand
  split <;> omega

theorem ratio_num_pos (h : x.magnitude ≠ 0) : 0 < x.ratio.1 :=
  Nat.mul_pos (significand_pos h) (Nat.pow_pos (by decide))

theorem ratio_value (x : Binary64) :
    (x.ratio.1 : ℚ) / x.ratio.2 = x.significand * (2 : ℚ) ^ x.exponent := by
  have hratio : scaleRatio 2 x.significand 1 x.exponent = x.ratio := by
    simp [scaleRatio, ratio]
  rw [← hratio, scaleRatio_value (by decide)]
  simp

theorem lastPlace_ratio (h : x.magnitude ≠ 0) : lastPlace x.ratio.1 x.ratio.2 = x.exponent := by
  have hs := significand_pos h
  have hsq : (0 : ℚ) < x.significand := by exact_mod_cast hs
  have hq : (0 : ℚ) < x.significand * (2 : ℚ) ^ x.exponent := by positivity
  rw [lastPlace_eq (ratio_num_pos h) x.ratio_den_pos, ratio_value]
  have hhigh : Int.log 2 (x.significand * (2 : ℚ) ^ x.exponent) < 53 + x.exponent := by
    rw [← Int.lt_zpow_iff_log_lt (by decide) hq, Nat.cast_ofNat, zpow_add₀ (by norm_num)]
    have hlt : (x.significand : ℚ) < 2 ^ (53 : Int) := by
      have := x.significand_lt
      norm_num [fractions] at this ⊢
      exact_mod_cast this
    gcongr
  by_cases hm : x.magnitude < fractions
  · have hexp : x.exponent = -1074 := by
      have hdiv : x.magnitude / fractions = 0 := Nat.div_eq_of_lt hm
      rw [exponent, hdiv]
      rfl
    have hlow : Int.log 2 (x.significand * (2 : ℚ) ^ x.exponent) < 52 + x.exponent := by
      rw [← Int.lt_zpow_iff_log_lt (by decide) hq, Nat.cast_ofNat, zpow_add₀ (by norm_num)]
      have hlt : (x.significand : ℚ) < 2 ^ (52 : Int) := by
        have hs : x.significand = x.magnitude := if_pos hm
        rw [hs]
        norm_num [fractions] at hm ⊢
        exact_mod_cast hm
      gcongr
    omega
  · have hlow : 52 + x.exponent ≤ Int.log 2 (x.significand * (2 : ℚ) ^ x.exponent) := by
      rw [← Int.zpow_le_iff_le_log (by decide) hq, Nat.cast_ofNat, zpow_add₀ (by norm_num)]
      have hle : (2 : ℚ) ^ (52 : Int) ≤ x.significand := by
        have hs : fractions ≤ x.significand := by
          rw [significand, if_neg hm]
          exact Nat.le_add_right _ _
        norm_num [fractions] at hs ⊢
        exact_mod_cast hs
      gcongr
    have hexp : -1074 ≤ x.exponent := by
      unfold exponent
      omega
    omega

/-- A finite double is the one nearest to the number that it stands for. -/
theorem ofRatio_ratio (hfinite : x.isFinite = true) :
    ofRatio x.isNegative x.ratio.1 x.ratio.2 = x := by
  by_cases h : x.magnitude = 0
  · have hnum : x.ratio.1 = 0 := by simp [ratio, significand, h, fractions]
    have hzero := x.ofMagnitude_magnitude
    rw [h] at hzero
    rw [ofRatio, if_pos hnum, hzero]
  · have hscale : scaleRatio 2 x.ratio.1 x.ratio.2 (-x.exponent) =
        (x.significand * x.ratio.2 * 2 ^ x.exponent.toNat,
          x.ratio.2 * 2 ^ x.exponent.toNat) := by
      have hneg : (- -x.exponent).toNat = x.exponent.toNat := by rw [neg_neg]
      simp only [scaleRatio, ratio, hneg, Nat.pow_eq, Prod.mk.injEq, and_true]
      ring
    have hround : roundHalfEven (x.significand * x.ratio.2 * 2 ^ x.exponent.toNat)
        (x.ratio.2 * 2 ^ x.exponent.toNat) = x.significand := by
      rw [Nat.mul_assoc]
      exact roundHalfEven_of_mul _ (Nat.mul_pos x.ratio_den_pos (Nat.pow_pos (by decide)))
    have hbits : (x.exponent + 1074).toNat * fractions + x.significand = x.magnitude := by
      have hdiv := Nat.div_add_mod x.magnitude fractions
      unfold exponent significand
      split
      · rename_i hm
        rw [Nat.div_eq_of_lt hm]
        simp
      · rename_i hm
        have hone : 1 ≤ x.magnitude / fractions :=
          (Nat.one_le_div_iff (by decide)).2 (Nat.le_of_not_lt hm)
        have hplaces : (((max (x.magnitude / fractions) 1 : Nat) : Int) - 1075 + 1074).toNat =
            x.magnitude / fractions - 1 := by omega
        rw [hplaces, ← Nat.add_assoc, ← Nat.succ_mul, Nat.succ_eq_add_one, Nat.sub_add_cancel hone,
          Nat.mul_comm, hdiv]
    have hlt : x.magnitude < infinityBits := by simpa [isFinite] using hfinite
    rw [ofRatio_eq (ratio_num_pos h).ne', lastPlace_ratio h, hscale, hround, hbits,
      Nat.min_eq_left hlt.le, ofMagnitude_magnitude]

end Exact

end Binary64

end MaxEnt
