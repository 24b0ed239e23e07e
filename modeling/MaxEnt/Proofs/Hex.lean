import Mathlib.Data.List.Basic
import MaxEnt.Hex

namespace MaxEnt.Hex

/-- The text is the number in hexadecimal digits, the letters small, and begins with a zero only if
it is no more than that. -/
structure Tells (t : Text) (n : Nat) : Prop where
  digits : ∀ c ∈ t, (48 ≤ c.val ∧ c.val ≤ 57) ∨ (97 ≤ c.val ∧ c.val ≤ 102)
  first : t.head? = some ↑ '0' → t = ↑ "0"
  value : t.foldl (fun n c => 16 * n + c.hex?.getD 0) 0 = n

def digit (d : Nat) : CodePoint := CodePoint.ofChar (Nat.digitChar d)

theorem ofNat_of_lt {n : Nat} (h : n < 16) : ofNat n = [digit n] := by
  rw [ofNat, Nat.toDigits_of_lt_base h]
  rfl

theorem ofNat_of_le {n : Nat} (h : 16 ≤ n) : ofNat n = ofNat (n / 16) ++ [digit (n % 16)] := by
  rw [ofNat, Nat.toDigits_of_base_le (by decide) h, List.map_append]
  rfl

theorem digit_spec {d : Nat} (h : d < 16) :
    (digit d).hex? = some d ∧ (digit d = ↑ '0' → d = 0) ∧
      ((48 ≤ (digit d).val ∧ (digit d).val ≤ 57) ∨ (97 ≤ (digit d).val ∧ (digit d).val ≤ 102)) := by
  have hall : ∀ d : Fin 16, (digit d.val).hex? = some d.val ∧ (digit d.val = ↑ '0' → d.val = 0) ∧
      ((48 ≤ (digit d.val).val ∧ (digit d.val).val ≤ 57) ∨
        (97 ≤ (digit d.val).val ∧ (digit d.val).val ≤ 102)) := by decide
  exact hall ⟨d, h⟩

theorem ofNat_ne_nil (n : Nat) : ofNat n ≠ [] := by
  simp [ofNat, Nat.toDigits_ne_nil]

theorem tells_ofNat (n : Nat) : Tells (ofNat n) n := by
  induction n using Nat.strongRecOn with
  | _ n ih =>
    obtain h | h := Nat.lt_or_ge n 16
    · obtain ⟨hvalue, hzero, hrange⟩ := digit_spec h
      rw [ofNat_of_lt h]
      refine ⟨List.forall_mem_singleton.2 hrange, fun hfirst => ?_, by simp [hvalue]⟩
      obtain rfl := hzero (Option.some.inj hfirst)
      rfl
    · have hlt : n % 16 < 16 := Nat.mod_lt n (by decide)
      obtain ⟨hvalue, -, hrange⟩ := digit_spec hlt
      have htells := ih (n / 16) (by omega)
      rw [ofNat_of_le h]
      refine ⟨List.forall_mem_append.2 ⟨htells.digits, List.forall_mem_singleton.2 hrange⟩, ?_, ?_⟩
      · intro hfirst
        rw [List.head?_append_of_ne_nil _ (ofNat_ne_nil _)] at hfirst
        -- The digits in front are those of a number that is not zero.
        have hzero := htells.value
        rw [htells.first hfirst] at hzero
        change 0 = n / 16 at hzero
        omega
      · rw [List.foldl_append, htells.value, List.foldl_cons, List.foldl_nil, hvalue]
        exact Nat.div_add_mod n 16

end MaxEnt.Hex
