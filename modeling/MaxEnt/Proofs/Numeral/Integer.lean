import Mathlib.Algebra.Order.Ring.Nat
import Mathlib.Data.List.Forall2
import Mathlib.Data.Nat.Log
import MaxEnt.Numeral.Integer
import MaxEnt.Proofs.Text.Ascii
import MaxEnt.Proofs.Text.Pieces

namespace MaxEnt.Numeral

theorem foldl_digitsOnto (n : Nat) (low : List Nat) :
    (digitsOnto n low).foldl (fun n d => 10 * n + d) 0 = low.foldl (fun n d => 10 * n + d) n := by
  induction n, low using digitsOnto.induct with
  | case1 n low h =>
    rw [digitsOnto, if_pos h]
    simp
  | case2 n low h ih =>
    rw [digitsOnto, if_neg h, ih, List.foldl_cons]
    congr 1
    omega

theorem ofDigits_digits (n : Nat) : ofDigits (digits n) = n := foldl_digitsOnto n []

theorem digitsOnto_lt_ten (n : Nat) (low : List Nat) (hlow : ∀ d ∈ low, d < 10) :
    ∀ d ∈ digitsOnto n low, d < 10 := by
  induction n, low using digitsOnto.induct with
  | case1 n low h =>
    rw [digitsOnto, if_pos h]
    simpa using ⟨h, hlow⟩
  | case2 n low h ih =>
    rw [digitsOnto, if_neg h]
    refine ih fun d hd => ?_
    rcases List.mem_cons.1 hd with rfl | hd
    · omega
    · exact hlow d hd

theorem digits_lt_ten (n : Nat) : ∀ d ∈ digits n, d < 10 := digitsOnto_lt_ten n [] (by simp)

theorem length_digitsOnto_le (n : Nat) (low : List Nat) (k : Nat) (h : n < 10 ^ (k + 1)) :
    (digitsOnto n low).length ≤ k + 1 + low.length := by
  induction n, low using digitsOnto.induct generalizing k with
  | case1 n low hn =>
    rw [digitsOnto, if_pos hn, List.length_cons]
    omega
  | case2 n low hn ih =>
    rw [digitsOnto, if_neg hn]
    cases k with
    | zero => omega
    | succ k =>
      have hk : n / 10 < 10 ^ (k + 1) := by
        rw [Nat.div_lt_iff_lt_mul (by omega), ← pow_succ]
        exact h
      have hd := ih k hk
      rw [List.length_cons] at hd
      omega

theorem length_digits_le {n k : Nat} (hk : 0 < k) (h : n < 10 ^ k) : (digits n).length ≤ k := by
  obtain ⟨j, rfl⟩ := Nat.exists_eq_succ_of_ne_zero hk.ne'
  exact length_digitsOnto_le n [] j h

theorem length_ofNat_eq (n : Nat) : (ofNat n).length = (digits n).length := List.length_map _

theorem length_ofNat_le {n k : Nat} (hk : 0 < k) (h : n < 10 ^ k) : (ofNat n).length ≤ k :=
  length_ofNat_eq n ▸ length_digits_le hk h

theorem length_digitsOnto (n : Nat) (low : List Nat) :
    (digitsOnto n low).length = Nat.log 10 n + 1 + low.length := by
  induction n, low using digitsOnto.induct with
  | case1 n low h =>
    rw [digitsOnto, if_pos h, Nat.log_of_lt h, List.length_cons]
    omega
  | case2 n low h ih =>
    have hlog := Nat.log_of_one_lt_of_le (b := 10) (by decide) (Nat.le_of_not_lt h)
    rw [digitsOnto, if_neg h, ih, hlog, List.length_cons]
    omega

theorem length_digits (n : Nat) : (digits n).length = Nat.log 10 n + 1 := length_digitsOnto n []

theorem lt_pow_of_length_digits {n k : Nat} (h : (digits n).length ≤ k) : n < 10 ^ k := by
  rw [length_digits] at h
  exact Nat.lt_pow_of_log_lt (by decide) h

theorem digitsOnto_ne_nil (n : Nat) (low : List Nat) : digitsOnto n low ≠ [] := by
  induction n, low using digitsOnto.induct with
  | case1 n low h => rw [digitsOnto, if_pos h]; simp
  | case2 n low h ih => rwa [digitsOnto, if_neg h]

def ReadsDigits (digit? : CodePoint → Option Nat) : Prop :=
  ∀ d < 10, digit? (CodePoint.ofDecimal d) = some d

theorem decimal?_ofDecimal : ReadsDigits CodePoint.decimal? := by
  have hall : ∀ d : Fin 10, (CodePoint.ofDecimal d).decimal? = some d.val := by decide
  exact fun d h => hall ⟨d, h⟩

theorem asciiDecimal?_ofDecimal : ReadsDigits CodePoint.asciiDecimal? := by
  have hall : ∀ d : Fin 10, (CodePoint.ofDecimal d).asciiDecimal? = some d.val := by decide
  exact fun d h => hall ⟨d, h⟩

theorem val_ofDecimal (d : Nat) :
    48 ≤ (CodePoint.ofDecimal d).val ∧ (CodePoint.ofDecimal d).val ≤ 57 := by
  unfold CodePoint.ofDecimal
  split
  · simp only
    omega
  · decide

theorem val_of_mem_ofNat {n : Nat} {c : CodePoint} (h : c ∈ ofNat n) : 48 ≤ c.val ∧ c.val ≤ 57 := by
  obtain ⟨d, -, rfl⟩ := List.mem_map.1 h
  exact val_ofDecimal d

theorem val_of_mem_ofInt {n : Int} {c : CodePoint} (h : c ∈ ofInt n) :
    c = ↑ '-' ∨ (48 ≤ c.val ∧ c.val ≤ 57) := by
  unfold ofInt at h
  split at h
  · rcases List.mem_cons.1 h with h | h
    · exact Or.inl h
    · exact Or.inr (val_of_mem_ofNat h)
  · exact Or.inr (val_of_mem_ofNat h)

theorem ascii_ofNat (n : Nat) : (ofNat n).Ascii := by
  intro c hc
  have h := val_of_mem_ofNat hc
  omega

theorem ascii_ofInt (n : Int) : (ofInt n).Ascii := by
  intro c hc
  rcases val_of_mem_ofInt hc with rfl | h
  · decide
  · omega

theorem not_mem_ofNat {c : CodePoint} (h : ¬ (48 ≤ c.val ∧ c.val ≤ 57)) (n : Nat) : c ∉ ofNat n :=
  fun hc => h (val_of_mem_ofNat hc)

theorem blank_not_mem_ofInt (n : Int) : CodePoint.ofChar ' ' ∉ ofInt n := by
  intro h
  rcases val_of_mem_ofInt h with h | h
  · exact absurd h (by decide)
  · exact absurd h (by decide)

theorem isBlank_of_mem_ofInt {n : Int} {c : CodePoint} (h : c ∈ ofInt n) : isBlank c = false := by
  rcases val_of_mem_ofInt h with rfl | h
  · decide
  · simp [isBlank, CodePoint.isBlank]
    omega

section Traversal

variable {α β : Type} {f : α → Option β} {xs : List α}

theorem mapM_eq_some_iff {ys : List β} :
    xs.mapM f = some ys ↔ List.Forall₂ (fun x y => f x = some y) xs ys := by
  induction xs generalizing ys with
  | nil => cases ys <;> simp
  | cons x xs ih =>
    rw [List.mapM_cons]
    cases ys with
    | nil => cases f x <;> cases xs.mapM f <;> simp
    | cons y ys =>
      rw [List.forall₂_cons, ← ih]
      cases f x <;> cases xs.mapM f <;> simp

theorem mapM_eq_none_iff : xs.mapM f = none ↔ ∃ x ∈ xs, f x = none := by
  induction xs with
  | nil => simp
  | cons x xs ih =>
    rw [List.mapM_cons, List.exists_mem_cons_iff, ← ih]
    cases f x <;> cases xs.mapM f <;> simp

theorem mapM_map_eq_some {g : β → Option α} {h : α → β} (hg : ∀ x ∈ xs, g (h x) = some x) :
    (xs.map h).mapM g = some xs :=
  mapM_eq_some_iff.2 (List.forall₂_map_left_iff.2 (List.forall₂_same.2 hg))

end Traversal

theorem groupedDigits?_ofNat (n : Nat) :
    groupedDigits? CodePoint.decimal? (ofNat n) = some (digits n) := by
  have hsplit : Text.splitOn '_' (ofNat n) = [ofNat n] :=
    Text.splitOn_of_not_mem (not_mem_ofNat (by decide) n)
  have hne : ofNat n ≠ [] := by
    simp [ofNat, digits, digitsOnto_ne_nil]
  have hdigits : (ofNat n).mapM CodePoint.decimal? = some (digits n) :=
    mapM_map_eq_some fun d hd => decimal?_ofDecimal d (digits_lt_ten n d hd)
  simp [groupedDigits?, hsplit, hne, hdigits]

theorem splitSign_ofNat (n : Nat) : splitSign (ofNat n) = (false, ofNat n) := by
  cases h : ofNat n with
  | nil => rfl
  | cons c t =>
    have hc : c ∈ ofNat n := by simp [h]
    have hminus : ¬ c = ↑ '-' := fun he => not_mem_ofNat (by decide) n (he ▸ hc)
    have hplus : ¬ c = ↑ '+' := fun he => not_mem_ofNat (by decide) n (he ▸ hc)
    simp [splitSign, hminus, hplus]

theorem splitSign_ofInt (n : Int) : splitSign (ofInt n) = (decide (n < 0), ofNat n.natAbs) := by
  unfold ofInt
  split
  · rename_i h
    simp [splitSign, h]
  · rename_i h
    rw [splitSign_ofNat, decide_eq_false h]

theorem signed_natAbs (n : Int) : signed (decide (n < 0)) n.natAbs = n := by
  unfold signed
  split
  · rename_i h
    have hn : n < 0 := of_decide_eq_true h
    omega
  · rename_i h
    have hn : ¬ n < 0 := of_decide_eq_false (by simpa using h)
    omega

theorem integer?_ofInt (n : Int) (h : (digits n.natAbs).length ≤ maxDigits) :
    integer? (ofInt n) = some n := by
  have htrim : (ofInt n).trim isBlank = ofInt n :=
    Text.trim_of_forall fun c hc => isBlank_of_mem_ofInt hc
  simp only [integer?, htrim, splitSign_ofInt, groupedDigits?_ofNat, if_pos h, ofDigits_digits,
    signed_natAbs]

theorem lt_pow_maxDigits {n : Nat} (h : n < 10 ^ 10) : n < 10 ^ maxDigits :=
  h.trans_le (Nat.pow_le_pow_right (by decide) (by decide))

theorem integer?_ofInt_of_lt {n : Int} (h : n.natAbs < 10 ^ maxDigits) : integer? (ofInt n) = some n :=
  integer?_ofInt n (length_digits_le (by decide) h)

end MaxEnt.Numeral
