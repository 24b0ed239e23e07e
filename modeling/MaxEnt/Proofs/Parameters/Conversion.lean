import MaxEnt.Proofs.Json.Number
import MaxEnt.Proofs.Parameters.Typed

namespace MaxEnt

open Numeral

namespace Conversion

theorem checkText_of_ascii {t : Text} (h : t.Ascii) : checkText t = .ok () := by
  rw [checkText, h.hasSurrogate]
  rfl

section Integer

variable {n : Int}

theorem splitMinus_ofNat (n : Nat) : splitMinus (ofNat n) = (false, ofNat n) := by
  cases h : ofNat n with
  | nil => rfl
  | cons c t =>
    have hminus : ¬ c = ↑ '-' := by
      rintro rfl
      exact not_mem_ofNat (by decide) n (h ▸ List.mem_cons_self)
    rw [splitMinus, if_neg hminus]

theorem splitMinus_ofInt (n : Int) : splitMinus (ofInt n) = (decide (n < 0), ofNat n.natAbs) := by
  unfold ofInt
  split
  · rename_i h
    simp [splitMinus, h]
  · rename_i h
    rw [splitMinus_ofNat, decide_eq_false h]

theorem minus_append_ofNat (n : Int) :
    Text.ofString (if decide (n < 0) then "-" else "") ++ ofNat n.natAbs = ofInt n := by
  rw [ofInt]
  by_cases h : n < 0
  · rw [decide_eq_true h, if_pos rfl, if_pos h]
    rfl
  · rw [decide_eq_false h, if_neg Bool.false_ne_true, if_neg h]
    rfl

theorem dropPlus?_ofInt (n : Int) : dropPlus? (ofInt n) = some (ofInt n) := by
  cases h : ofInt n with
  | nil => rfl
  | cons c t =>
    have hplus : ¬ c = ↑ '+' := by
      rintro rfl
      rcases val_of_mem_ofInt (n := n) (h ▸ List.mem_cons_self) with he | he
      · exact absurd he (by decide)
      · exact absurd he (by decide)
    rw [dropPlus?, if_neg hplus]

theorem dropLeadingZeros?_ofNat (n : Nat) : dropLeadingZeros? (ofNat n) = some (ofNat n) := by
  have hdigits := leading_digits n
  have hlt := digits_lt_ten n
  rw [← digitText_digits]
  rcases hdigits with h | ⟨d, ds, h, hd⟩
  · rw [h]
    rfl
  · rw [h] at hlt ⊢
    have hzero : (digitText (d :: ds)).head? ≠ some ↑ '0' := by
      intro he
      have hread := asciiDecimal?_ofDecimal d (hlt d (by simp))
      rw [Option.some.inj he] at hread
      exact hd (Option.some.inj hread).symm
    rw [dropLeadingZeros?, if_pos hzero]

theorem dropZeroFraction_ofNat (n : Nat) : dropZeroFraction (ofNat n) = ofNat n := by
  rw [dropZeroFraction, Text.splitFirst_of_not_mem (not_mem_ofNat (by decide) n)]

theorem dropUnderscores?_ofNat (n : Nat) : dropUnderscores? (ofNat n) = some (ofNat n) := by
  have hunderscore : ↑ '_' ∉ ofNat n := not_mem_ofNat (by decide) n
  have hne : (ofNat n).isEmpty = false := by simp [ofNat, digits, digitsOnto_ne_nil]
  have hkept : ∀ c ∈ ofNat n, decide (c ≠ ↑ '_') = true := fun c hc =>
    decide_eq_true fun he => hunderscore (he ▸ hc)
  rw [dropUnderscores?, Text.splitOn_of_not_mem hunderscore, List.filter_eq_self.2 hkept]
  simp [hne]

theorem cleanInteger?_ofInt (n : Int) : cleanInteger? (ofInt n) = some (ofInt n) := by
  have htrim : (ofInt n).trim isBlank = ofInt n :=
    Text.trim_of_forall fun c hc => isBlank_of_mem_ofInt hc
  rw [cleanInteger?, htrim, dropPlus?_ofInt]
  simp only [Option.bind_eq_bind, Option.bind_some, splitMinus_ofInt, dropLeadingZeros?_ofNat,
    dropZeroFraction_ofNat, dropUnderscores?_ofNat, Option.getD_some]
  exact congrArg some (minus_append_ofNat n)

theorem plainInteger?_ofInt (h : (digits n.natAbs).length ≤ maxDigits) :
    plainInteger? (ofInt n) = some n := by
  have hdigits : (ofNat n.natAbs).mapM CodePoint.asciiDecimal? = some (digits n.natAbs) :=
    mapM_digitText asciiDecimal?_ofDecimal (digits_lt_ten _)
  have hread := signed_natAbs n
  rw [← ofDigits_digits n.natAbs] at hread
  simp only [plainInteger?, splitMinus_ofInt, hdigits]
  rcases leading_digits n.natAbs with hzero | ⟨d, ds, hds, hd⟩
  · rw [hzero] at hread ⊢
    simpa [maxDigits] using hread
  · rw [hds] at hread h ⊢
    cases d with
    | zero => exact absurd rfl hd
    | succ d =>
      simp only [if_pos h]
      exact congrArg some hread

theorem beginsTooLong_ofInt (h : (digits n.natAbs).length ≤ maxDigits) :
    beginsTooLong (ofInt n) = false := by
  have hlength : ((ofNat n.natAbs).takeWhile fun c => c.asciiDecimal?.isSome).length ≤ maxDigits :=
    (List.takeWhile_sublist _).length_le.trans (length_ofNat_eq n.natAbs ▸ h)
  rw [beginsTooLong, splitMinus_ofInt]
  simp only [Bool.and_eq_false_iff, decide_eq_false_iff_not]
  exact .inr (Nat.not_lt.2 hlength)

theorem integer_ofInt (h : (digits n.natAbs).length ≤ maxDigits) :
    integer (.string (ofInt n)) = .ok n := by
  rw [integer, integerOfText, checkText_of_ascii (ascii_ofInt n), beginsTooLong_ofInt h,
    cleanInteger?_ofInt, Option.bind_some, plainInteger?_ofInt h]
  rfl

end Integer

theorem real_ofReal {x : Binary64} (h : x.isNaN = false) : real (.string (ofReal x)) = .ok x := by
  have hunderscore : (ofReal x).contains ↑ '_' = false := by
    rw [Bool.eq_false_iff, ne_eq, List.contains_iff_mem]
    intro hmem
    rcases mem_ofReal hmem with hdigit | hsign
    · exact absurd hdigit (by decide)
    · exact absurd hsign (by decide)
  have hread : bareReal? CodePoint.asciiDecimal? (ofReal x) = some x := by
    rw [bareReal?_ofReal asciiDecimal?_ofDecimal, Binary64.canonical, h]
    rfl
  rw [real, realOfText, checkText_of_ascii (ascii_ofReal x), trim_ofReal]
  simp only [hunderscore, hread]
  rfl

theorem truth_property (b : Bool) : truth (.string (Json.bool b).property) = .ok b := by
  cases b <;> decide

end Conversion

/-- An integer with no more digits than are read, or a double that is a number. All that is no number
is legible. -/
def Json.Legible : Json → Prop
  | .int n => (digits n.natAbs).length ≤ maxDigits
  | .real x => x.isNaN = false
  | _ => True

instance (j : Json) : Decidable j.Legible :=
  match j with
  | .int _ => inferInstanceAs (Decidable (_ ≤ _))
  | .real _ => inferInstanceAs (Decidable (_ = _))
  | .null | .bool _ | .string _ | .array _ | .object _ => .isTrue trivial

/-- The values of a kind are found again in what shows them: as they are, and by their texts if they
are legible and not unset. -/
structure Kind.Told (α : Type) [Kind α] : Prop where
  ofJson?_json : ∀ v : α, Kind.ofJson? (Kind.json v) = some v
  convert_property : ∀ v : α, (Kind.json v).Legible → Parameters.isSet (Kind.json v) = true →
    Kind.convert (.string (Kind.json v).property) = .ok v

namespace Kind

theorem told_text : Told Text := ⟨fun _ => rfl, fun _ _ _ => rfl⟩

theorem told_int : Told Int := ⟨fun _ => rfl, fun _ h _ => Conversion.integer_ofInt h⟩

theorem told_bool : Told Bool := ⟨fun _ => rfl, fun b _ _ => Conversion.truth_property b⟩

theorem told_binary64 : Told Binary64 := ⟨fun _ => rfl, fun _ h _ => Conversion.real_ofReal h⟩

theorem ofJson?_optional {α : Type} [Kind α] {j : Json} (h : Parameters.isSet j = true) :
    (ofJson? j : Option (Option α)) = (ofJson? j).map some := by
  cases j with
  | null => cases h
  | _ => rfl

theorem Told.option {α : Type} [Kind α] (h : Told α)
    (hset : ∀ v : α, Parameters.isSet (Kind.json v) = true) : Told (Option α) where
  ofJson?_json v := by
    cases v with
    | none => rfl
    | some v =>
      have hv : (ofJson? (Kind.json v) : Option (Option α)) = some (some v) := by
        rw [ofJson?_optional (hset v), h.ofJson?_json]
        rfl
      exact hv
  convert_property v hlegible hs := by
    cases v with
    | none => cases hs
    | some v => exact congrArg (Except.map some) (h.convert_property v hlegible hs)

end Kind

namespace Held

variable {α : Type} [Kind α] {h : Held α}

theorem ofJson_json (htold : Kind.Told α) (hproper : h.IsProper) : ofJson h.json = h := by
  obtain ⟨v, rfl⟩ := hproper
  rw [ofJson, json, htold.ofJson?_json]
  rfl

theorem convert_property (htold : Kind.Told α) (hproper : h.IsProper) (hlegible : h.json.Legible)
    (hset : Parameters.isSet h.json = true) :
    convert (.string h.json.property) = .ok (ofJson (α := α) h.json) := by
  rw [ofJson_json htold hproper]
  obtain ⟨v, rfl⟩ := hproper
  rw [convert, json, htold.convert_property v hlegible hset]
  rfl

end Held

end MaxEnt
