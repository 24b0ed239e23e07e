import MaxEnt.Proofs.Json.Number
import MaxEnt.Proofs.Json.String

namespace MaxEnt.Json

open Numeral

/-- What may stand behind a value: nothing, a blank, a comma or a closing mark. -/
def Ends (t : Text) : Prop :=
  ∀ c, t.head? = some c → isBlank c = true ∨ c = ↑ ',' ∨ c = ↑ ']' ∨ c = ↑ '}'

theorem Ends.nil : Ends [] := by simp [Ends]

theorem Ends.cons {c : CodePoint} (hc : isBlank c = true ∨ c = ↑ ',' ∨ c = ↑ ']' ∨ c = ↑ '}')
    (t : Text) : Ends (c :: t) := by
  rintro d hd
  cases hd
  exact hc

theorem isBlank_iff (c : CodePoint) :
    isBlank c = true ↔ c = ↑ ' ' ∨ c = ↑ '\t' ∨ c = ↑ '\n' ∨ c = ↑ '\r' := by
  simp [isBlank, or_assoc]

theorem Ends.stops {t : Text} (h : Ends t) : Stops t := by
  intro c hc
  have hends := h c hc
  rw [isBlank_iff] at hends
  rcases hends with (rfl | rfl | rfl | rfl) | rfl | rfl | rfl <;> decide

theorem parseWord_of_digit {c : CodePoint} (h : 48 ≤ c.val ∧ c.val ≤ 57) (t : Text) :
    parseWord (c :: t) = none := by
  have hne : ∀ d : CodePoint, ¬ (48 ≤ d.val ∧ d.val ≤ 57) → (d == c) = false := fun d hd =>
    beq_false_of_ne fun he => hd (he ▸ h)
  have hskip : ∀ (d : CodePoint) (word : Text), ¬ (48 ≤ d.val ∧ d.val ≤ 57) →
      skip? (d :: word) (c :: t) = none := fun d word hd => by
    simp [skip?, List.isPrefixOf, hne d hd]
  have hwords : ∀ p ∈ words, ∃ d word, p.1 = d :: word ∧ ¬ (48 ≤ d.val ∧ d.val ≤ 57) := by
    intro p hp
    simp only [words, List.mem_cons, List.not_mem_nil, or_false] at hp
    rcases hp with rfl | rfl | rfl | rfl | rfl | rfl <;> exact ⟨_, _, rfl, by decide⟩
  rw [parseWord, List.findSome?_eq_none_iff]
  intro p hp
  obtain ⟨d, word, hp, hd⟩ := hwords p hp
  simp only [hp, hskip d word hd, Option.map_none]

theorem parseWord_minus_of_digit {c : CodePoint} (h : 48 ≤ c.val ∧ c.val ≤ 57) (t : Text) :
    parseWord (↑ '-' :: c :: t) = none := by
  have hne : (CodePoint.ofChar 'I' == c) = false :=
    beq_false_of_ne fun he => absurd (he ▸ h) (by decide)
  have hskip : skip? "-Infinity" (↑ '-' :: c :: t) = none := by
    have hword : Text.ofString "-Infinity" = ↑ '-' :: ↑ 'I' :: ↑ "nfinity" := rfl
    simp [skip?, hword, List.isPrefixOf, hne]
  simp only [parseWord, words, List.findSome?_cons, hskip]
  rfl

theorem parseScalar_text {s : Spelling} (hs : s.Sound) (negative : Bool) (rest : Text) :
    parseScalar (ofSign negative ++ (s.text ++ rest)) = parseUnsigned negative (s.text ++ rest) := by
  obtain ⟨d, t, -, htext⟩ := hs.head_text
  have hval := val_ofDecimal d
  rw [htext, List.cons_append]
  cases negative with
  | true =>
    have hword := parseWord_minus_of_digit hval (t ++ rest)
    change parseScalar (↑ '-' :: CodePoint.ofDecimal d :: (t ++ rest)) = _
    rw [parseScalar, hword]
    rfl
  | false =>
    have hword := parseWord_of_digit hval (t ++ rest)
    have hquote : ¬ CodePoint.ofDecimal d = ↑ '"' := fun he => absurd (he ▸ hval) (by decide)
    have hminus : ¬ CodePoint.ofDecimal d = ↑ '-' := fun he => absurd (he ▸ hval) (by decide)
    rw [ofSign_false, List.nil_append, parseScalar, hword]
    simp only [if_neg hquote, if_neg hminus]

theorem ofInt_eq (n : Int) :
    ofInt n = ofSign (decide (n < 0)) ++ Spelling.text ⟨digits n.natAbs, [], none⟩ := by
  have htext : Spelling.text ⟨digits n.natAbs, [], none⟩ = ofNat n.natAbs := by
    rw [Spelling.text_of_whole, digitText_digits]
    exact List.append_nil _
  rw [htext, ofInt]
  by_cases hn : n < 0
  · rw [if_pos hn, decide_eq_true hn]
    rfl
  · rw [if_neg hn, decide_eq_false hn]
    rfl

theorem parseScalar_ofInt {n : Int} (h : (digits n.natAbs).length ≤ maxDigits) {rest : Text}
    (hrest : Ends rest) : parseScalar (ofInt n ++ rest) = .ok (int n, rest) := by
  have hleading := leading_digits n.natAbs
  have hsound : Spelling.Sound ⟨digits n.natAbs, [], none⟩ :=
    ⟨hleading.ne_nil, digits_lt_ten _, by simp⟩
  rw [ofInt_eq, List.append_assoc, parseScalar_text hsound,
    parseUnsigned_text hsound hleading _ hrest.stops]
  simp only [List.isEmpty_nil, Bool.not_true, Option.isSome_none, Bool.or_self, Bool.false_eq_true,
    if_false, if_pos h, ofDigits_digits, signed_natAbs]

theorem parseScalar_ofReal {x : Binary64} (h : x.isFinite = true) {rest : Text} (hrest : Ends rest) :
    parseScalar (ofSign x.isNegative ++ (ofDecimal x.shortest ++ rest)) = .ok (real x, rest) := by
  have hsound := sound_spelling x.shortest
  have hleading := leading_spelling (Binary64.exponent_shortest_of_zero h)
  have hmark : (!(spelling x.shortest).fraction.isEmpty || (spelling x.shortest).power?.isSome) =
      true := by
    rcases fraction_or_power_spelling x.shortest with hfraction | hpower
    · simp [hfraction]
    · simp [hpower]
  rw [← text_spelling, parseScalar_text hsound, parseUnsigned_text hsound hleading _ hrest.stops,
    if_pos hmark, toBinary64_spelling, Binary64.ofDecimal_shortest h]

theorem parseScalar_realText {x : Binary64} (h : x.canonical = x) {rest : Text}
    (hrest : Ends rest) : parseScalar (realText x ++ rest) = .ok (real x, rest) := by
  unfold realText
  split_ifs with hnan hinf hnegative
  · rw [Binary64.canonical, if_pos hnan] at h
    rw [← h]
    rfl
  · have hx := Binary64.infinity_isNegative hinf
    rw [hnegative] at hx
    rw [← hx]
    rfl
  · have hx := Binary64.infinity_isNegative hinf
    rw [Bool.eq_false_iff.2 hnegative] at hx
    rw [← hx]
    rfl
  · have hreal : ofReal x = ofSign x.isNegative ++ ofDecimal x.shortest := by
      rw [ofReal, ofBinary64, if_neg hnan, if_neg hinf]
    rw [hreal, List.append_assoc]
    exact parseScalar_ofReal (Binary64.isFinite_of_not hnan hinf) hrest

theorem parseScalar_stringText {t : Text} (h : ModifiedUtf8.Unpaired t) (rest : Text) :
    parseScalar (stringText t ++ rest) = .ok (string t, rest) := by
  have hword : ∀ u, parseWord (↑ '"' :: u) = none := fun _ => rfl
  rw [stringText_eq, List.cons_append, List.append_assoc, parseScalar, hword]
  simp only [if_true, List.singleton_append, parseString_stringText h]

end MaxEnt.Json
