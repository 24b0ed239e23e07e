import MaxEnt.Binary64.Shortest
import MaxEnt.Proofs.Binary64.Rounding
import MaxEnt.Proofs.Numeral.Integer

namespace MaxEnt.Binary64

theorem ofDecimal_zero (negative : Bool) (e : Int) : ofDecimal negative 0 e = ofMagnitude negative 0 := by
  simp [ofDecimal]

theorem ofDecimal_eq_ofRatio {s : Nat} {e : Int} (hs : s ≠ 0) (hlow : -324 < Nat.log 10 s + 1 + e)
    (hhigh : Nat.log 10 s + 1 + e < 310) (negative : Bool) :
    ofDecimal negative s e =
      ofRatio negative (scaleRatio 10 s 1 e).1 (scaleRatio 10 s 1 e).2 := by
  have hplaces : ((Numeral.digits s).length : Int) + e = Nat.log 10 s + 1 + e := by
    rw [Numeral.length_digits]
    push_cast
    rfl
  simp only [ofDecimal, hplaces, if_neg hs]
  rw [if_neg (by omega), if_neg (by omega)]

theorem ofDecimal_mul_pow (negative : Bool) (s k : Nat) (e : Int) :
    ofDecimal negative (s * 10 ^ k) e = ofDecimal negative s (e + k) := by
  by_cases hs : s = 0
  · rw [hs, Nat.zero_mul, ofDecimal_zero, ofDecimal_zero]
  · have hsk : s * 10 ^ k ≠ 0 := Nat.mul_ne_zero hs (Nat.pow_pos (by decide)).ne'
    have hlog : Nat.log 10 (s * 10 ^ k) = Nat.log 10 s + k := by
      induction k with
      | zero => simp
      | succ k ih =>
        have hk : s * 10 ^ k ≠ 0 := Nat.mul_ne_zero hs (Nat.pow_pos (by decide)).ne'
        rw [pow_succ, ← Nat.mul_assoc, Nat.log_mul_base (by decide) hk, ih hk, Nat.add_assoc]
    have hplaces : ((Numeral.digits (s * 10 ^ k)).length : Int) + e =
        (Numeral.digits s).length + (e + k) := by
      rw [Numeral.length_digits, Numeral.length_digits, hlog]
      push_cast
      ring
    have hratio : ofRatio negative (scaleRatio 10 (s * 10 ^ k) 1 e).1
        (scaleRatio 10 (s * 10 ^ k) 1 e).2 =
        ofRatio negative (scaleRatio 10 s 1 (e + k)).1 (scaleRatio 10 s 1 (e + k)).2 := by
      refine ofRatio_congr negative (scaleRatio_pos (by decide) (by decide) _)
        (scaleRatio_pos (by decide) (by decide) _) ?_
      have hexp : k + e.toNat + (-(e + k)).toNat = (e + k).toNat + (-e).toNat := by omega
      calc s * 10 ^ k * 10 ^ e.toNat * (1 * 10 ^ (-(e + k)).toNat)
          = s * 10 ^ (k + e.toNat + (-(e + k)).toNat) := by ring
        _ = s * 10 ^ ((e + k).toNat + (-e).toNat) := by rw [hexp]
        _ = s * 10 ^ (e + k).toNat * (1 * 10 ^ (-e).toNat) := by ring
    simp only [ofDecimal, hplaces, if_neg hs, if_neg hsk, hratio]

theorem ofDecimal_dropZeros (negative : Bool) (fuel : Nat) (d : Decimal) :
    ofDecimal negative (d.dropZeros fuel).significand (d.dropZeros fuel).exponent =
      ofDecimal negative d.significand d.exponent := by
  induction fuel generalizing d with
  | zero => rfl
  | succ fuel ih =>
    rw [Decimal.dropZeros]
    split
    · rename_i h
      have hs : d.significand / 10 * 10 ^ 1 = d.significand := by omega
      rw [ih]
      change ofDecimal negative (d.significand / 10) (d.exponent + (1 : Nat)) = _
      rw [← ofDecimal_mul_pow, hs]
    · rfl

theorem ratio_den_le (x : Binary64) : x.ratio.2 ≤ (10 ^ 54) ^ 6 := by
  have hexp : (-x.exponent).toNat ≤ 179 * 6 := by
    unfold exponent
    omega
  calc x.ratio.2 = 2 ^ (-x.exponent).toNat := rfl
    _ ≤ (2 ^ 179) ^ 6 := by
      rw [← pow_mul]
      exact pow_le_pow_right₀ (by decide) hexp
    _ ≤ (10 ^ 54) ^ 6 := Nat.pow_le_pow_left (by norm_num) 6

theorem ratio_num_lt {x : Binary64} (h : x.isFinite = true) :
    x.ratio.1 < (10 ^ 103) ^ 3 * x.ratio.2 := by
  have hlt : x.magnitude < infinityBits := by simpa [isFinite] using h
  have hdiv : x.magnitude / fractions < 2047 := by
    rw [Nat.div_lt_iff_lt_mul (by decide)]
    exact hlt
  have hexp : 53 + x.exponent.toNat ≤ 114 * 3 * 3 + (-x.exponent).toNat := by
    unfold exponent
    omega
  have hs : x.significand < 2 ^ 53 := x.significand_lt
  calc x.ratio.1 = x.significand * 2 ^ x.exponent.toNat := rfl
    _ < 2 ^ 53 * 2 ^ x.exponent.toNat := Nat.mul_lt_mul_of_pos_right hs (Nat.pow_pos (by decide))
    _ = 2 ^ (53 + x.exponent.toNat) := (pow_add 2 53 _).symm
    _ ≤ 2 ^ (114 * 3 * 3 + (-x.exponent).toNat) := Nat.pow_le_pow_right (by decide) hexp
    _ = ((2 ^ 114) ^ 3) ^ 3 * x.ratio.2 := by
      rw [pow_add, pow_mul, pow_mul]
      rfl
    _ ≤ (10 ^ 103) ^ 3 * x.ratio.2 :=
      Nat.mul_le_mul_right _ (Nat.pow_le_pow_left (by norm_num) 3)

theorem ofDecimal_of_ratio {x : Binary64} (hfinite : x.isFinite = true) (hx : x.magnitude ≠ 0)
    {s k : Nat} (h : s * x.ratio.2 = x.ratio.1 * 10 ^ k) :
    ofDecimal x.isNegative s (-k) = x := by
  have hnum := ratio_num_pos hx
  have hden := x.ratio_den_pos
  have hten : 0 < 10 ^ k := Nat.pow_pos (by decide)
  have hs : s ≠ 0 := by
    rintro rfl
    have := Nat.mul_pos hnum hten
    omega
  -- Neither shortcut for numbers far out of bounds is taken.
  have hlow : -324 < (Nat.log 10 s : Int) + 1 + -k := by
    by_contra hle
    have hlog : Nat.log 10 s + 1 + 324 ≤ k := by omega
    have hslt : s < 10 ^ (Nat.log 10 s + 1) := Nat.lt_pow_succ_log_self (by decide) s
    have hpow : 10 ^ (Nat.log 10 s + 1) * (10 ^ 54) ^ 6 ≤ 10 ^ k := by
      rw [← pow_mul, ← pow_add]
      exact Nat.pow_le_pow_right (by decide) hlog
    have hcontra : s * x.ratio.2 < x.ratio.1 * 10 ^ k :=
      calc s * x.ratio.2 ≤ s * (10 ^ 54) ^ 6 := Nat.mul_le_mul_left s x.ratio_den_le
        _ < 10 ^ (Nat.log 10 s + 1) * (10 ^ 54) ^ 6 := Nat.mul_lt_mul_of_pos_right hslt (by positivity)
        _ ≤ 10 ^ k := hpow
        _ ≤ x.ratio.1 * 10 ^ k := Nat.le_mul_of_pos_left _ hnum
    omega
  have hhigh : (Nat.log 10 s : Int) + 1 + -k < 310 := by
    by_contra hge
    have hlog : k + 309 ≤ Nat.log 10 s := by omega
    have hsge : 10 ^ Nat.log 10 s ≤ s := Nat.pow_log_le_self 10 hs
    have hpow : 10 ^ k * (10 ^ 103) ^ 3 ≤ 10 ^ Nat.log 10 s := by
      rw [← pow_mul, ← pow_add]
      exact Nat.pow_le_pow_right (by decide) hlog
    have hcontra : x.ratio.1 * 10 ^ k < s * x.ratio.2 :=
      calc x.ratio.1 * 10 ^ k < (10 ^ 103) ^ 3 * x.ratio.2 * 10 ^ k :=
            Nat.mul_lt_mul_of_pos_right (ratio_num_lt hfinite) hten
        _ = 10 ^ k * (10 ^ 103) ^ 3 * x.ratio.2 := by ring
        _ ≤ s * x.ratio.2 := Nat.mul_le_mul_right _ (hpow.trans hsge)
    omega
  rw [ofDecimal_eq_ofRatio hs hlow hhigh]
  have hscale : scaleRatio 10 s 1 (-k) = (s, 10 ^ k) := by simp [scaleRatio]
  rw [hscale, ofRatio_congr x.isNegative hten hden h, ofRatio_ratio hfinite]

theorem ofDecimal_exactDecimal {x : Binary64} (hfinite : x.isFinite = true) (hx : x.magnitude ≠ 0) :
    ofDecimal x.isNegative x.exactDecimal.significand x.exactDecimal.exponent = x := by
  unfold exactDecimal
  split
  · rename_i h
    have hneg : (-x.exponent).toNat = 0 := by omega
    refine ofDecimal_of_ratio (k := 0) hfinite hx ?_
    simp [ratio, hneg]
  · rename_i h
    have hpos : x.exponent.toNat = 0 := by omega
    have hexp : x.exponent = -((-x.exponent).toNat : Int) := by omega
    simp only
    rw [hexp, neg_neg, Int.toNat_natCast]
    refine ofDecimal_of_ratio (k := (-x.exponent).toNat) hfinite hx ?_
    have hten : (10 : Nat) ^ (-x.exponent).toNat = 2 ^ (-x.exponent).toNat * 5 ^ (-x.exponent).toNat := by
      rw [← Nat.mul_pow]
    simp only [ratio, hpos, hten, Nat.pow_eq]
    ring

theorem ofDecimal_of_decimalOf? {x : Binary64} {count : Nat} {d : Decimal}
    (h : x.decimalOf? count = some d) : ofDecimal x.isNegative d.significand d.exponent = x := by
  unfold decimalOf? at h
  simp only at h
  split at h
  · rename_i hbelow habove
    split at h <;> cases h
    · exact of_decide_eq_true hbelow
    · exact of_decide_eq_true habove
  · rename_i hbelow habove
    cases h
    exact of_decide_eq_true hbelow
  · rename_i hbelow habove
    cases h
    exact of_decide_eq_true habove
  · cases h

theorem ofDecimal_shortest {x : Binary64} (h : x.isFinite = true) :
    ofDecimal x.isNegative x.shortest.significand x.shortest.exponent = x := by
  unfold shortest
  split
  · rename_i hx
    have hzero := x.ofMagnitude_magnitude
    rw [hx] at hzero
    rw [ofDecimal_zero, hzero]
  · rename_i hx
    rw [ofDecimal_dropZeros]
    cases hfound : (List.range 17).findSome? fun i => x.decimalOf? (i + 1) with
    | none => exact ofDecimal_exactDecimal h hx
    | some d =>
      obtain ⟨count, -, hd⟩ := List.exists_of_findSome?_eq_some hfound
      exact ofDecimal_of_decimalOf? hd

end MaxEnt.Binary64
