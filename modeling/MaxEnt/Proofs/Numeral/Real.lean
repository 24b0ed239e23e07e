import MaxEnt.Proofs.Numeral.Spelling

namespace MaxEnt

/-- The same double, but one for all that are not a number: their text does not tell them apart. -/
def Binary64.canonical (x : Binary64) : Binary64 := if x.isNaN then .notANumber false else x

theorem Binary64.infinity_isNegative {x : Binary64} (h : x.isInfinite = true) :
    infinity x.isNegative = x := by
  have hm : x.magnitude = infinityBits := of_decide_eq_true h
  have hx := x.ofMagnitude_magnitude
  rw [hm] at hx
  exact hx

theorem Binary64.isFinite_of_not {x : Binary64} (hnan : ¬ x.isNaN = true)
    (hinf : ¬ x.isInfinite = true) : x.isFinite = true := by
  simp only [isNaN, isInfinite, isFinite, decide_eq_true_eq] at *
  omega

namespace Numeral

theorem isMark_of_digit {c : CodePoint} (h : 48 ≤ c.val ∧ c.val ≤ 57) :
    (c.lowerAscii == (↑ 'e' : CodePoint)) = false := by
  have hlow : c.lowerAscii = c := dif_neg (by omega)
  rw [hlow, beq_eq_false_iff_ne]
  rintro rfl
  exact absurd h (by decide)

variable {digit? : CodePoint → Option Nat}

theorem exponent?_power (hdigit : ReadsDigits digit?) (e : Int) (sign : CodePoint)
    (hsign : sign = if e < 0 then ↑ '-' else ↑ '+') :
    Scientific.exponent? digit? (sign :: digitText (Spelling.powerDigits e)) = some e := by
  have hsplit : splitSign (sign :: digitText (Spelling.powerDigits e)) =
      (decide (e < 0), digitText (Spelling.powerDigits e)) := by
    rw [hsign]
    by_cases h : e < 0 <;> simp [splitSign, h]
    decide
  rw [Scientific.exponent?, hsplit]
  simp only [groupedDigits?_digitText hdigit (Spelling.powerDigits_ne_nil e)
    (Spelling.powerDigits_lt_ten e), Option.map_some, Spelling.ofDigits_powerDigits, signed_natAbs]

theorem part?_digitText (hdigit : ReadsDigits digit?) {ds : List Nat} (h : ∀ d ∈ ds, d < 10) :
    Scientific.part? digit? (digitText ds) = some ds := by
  by_cases hne : ds = []
  · rw [hne]
    rfl
  · have hempty : (digitText ds).isEmpty = false := by simpa [digitText] using hne
    rw [Scientific.part?, hempty]
    exact groupedDigits?_digitText hdigit hne h

theorem isMark_of_mem_mantissa {s : Spelling} {c : CodePoint} (h : c ∈ s.mantissa) :
    (!(c.lowerAscii == (↑ 'e' : CodePoint))) = true := by
  rw [Spelling.mantissa, List.mem_append] at h
  rcases h with h | h
  · rw [isMark_of_digit (val_of_mem_digitText h)]
    rfl
  · split at h
    · cases h
    · rcases List.mem_cons.1 h with rfl | h
      · decide
      · rw [isMark_of_digit (val_of_mem_digitText h)]
        rfl

theorem splitFirst_mantissa (s : Spelling) :
    (s.mantissa.splitFirst '.').getD (s.mantissa, []) = (digitText s.whole, digitText s.fraction) := by
  have hwhole : (CodePoint.ofChar '.') ∉ digitText s.whole := fun h =>
    absurd (val_of_mem_digitText h) (by decide)
  unfold Spelling.mantissa
  by_cases hf : s.fraction = []
  · simp [hf, Text.splitFirst_of_not_mem hwhole]
    rfl
  · have hempty : s.fraction.isEmpty = false := by simpa using hf
    simp [hempty, Text.splitFirst_append hwhole]

theorem isMark_head_powerText {s : Spelling} {c : CodePoint} (h : s.powerText.head? = some c) :
    (!(c.lowerAscii == (↑ 'e' : CodePoint))) = false := by
  unfold Spelling.powerText at h
  split at h
  · rw [Spelling.power_eq] at h
    cases h
    decide
  · cases h

theorem ofText?_text (hdigit : ReadsDigits digit?) {s : Spelling} (h : s.Sound) :
    Scientific.ofText? digit? s.text = some s.number := by
  have hmarks : ∀ c ∈ s.mantissa, (!(c.lowerAscii == (↑ 'e' : CodePoint))) = true :=
    fun c hc => isMark_of_mem_mantissa hc
  have hstop : ∀ c, s.powerText.head? = some c → (!(c.lowerAscii == (↑ 'e' : CodePoint))) = false :=
    fun c hc => isMark_head_powerText hc
  have hne : s.whole.isEmpty = false := by simpa using h.whole_ne_nil
  unfold Scientific.ofText?
  simp only [Spelling.text, Text.takeWhile_append hmarks hstop, Text.dropWhile_append hmarks hstop,
    splitFirst_mantissa, part?_digitText hdigit h.whole_lt_ten, part?_digitText hdigit h.fraction_lt_ten]
  cases hp : s.power? with
  | none => simp [Spelling.powerText, Spelling.number, hp, h.whole_ne_nil]
  | some e =>
    simp [Spelling.powerText, Spelling.number, Spelling.power_eq, hp, exponent?_power hdigit e _ rfl,
      h.whole_ne_nil]

theorem ofSign_true : ofSign true = [↑ '-'] := rfl

theorem ofSign_false : ofSign false = [] := rfl

theorem splitSign_text {s : Spelling} (h : s.Sound) (negative : Bool) :
    splitSign (ofSign negative ++ s.text) = (negative, s.text) := by
  cases negative with
  | true => rfl
  | false =>
    obtain ⟨d, t, -, htext⟩ := h.head_text
    have hval := val_ofDecimal d
    have hminus : ¬ CodePoint.ofDecimal d = ↑ '-' := fun he => absurd (he ▸ hval) (by decide)
    have hplus : ¬ CodePoint.ofDecimal d = ↑ '+' := fun he => absurd (he ▸ hval) (by decide)
    rw [ofSign_false, List.nil_append, htext, splitSign, if_neg hminus, if_neg hplus]

theorem lowerAscii_text_ne {s : Spelling} (h : s.Sound) {c : CodePoint} (hc : 57 < c.val)
    (word : Text) : s.text.lowerAscii ≠ c :: word := by
  obtain ⟨d, t, -, htext⟩ := h.head_text
  have hval := val_ofDecimal d
  have hlow : (CodePoint.ofDecimal d).lowerAscii = CodePoint.ofDecimal d := dif_neg (by omega)
  intro he
  rw [htext, Text.lowerAscii, List.map_cons, hlow, List.cons.injEq] at he
  rw [he.1] at hval
  omega

theorem bareReal?_text (hdigit : ReadsDigits digit?) {s : Spelling} (h : s.Sound)
    (negative : Bool) :
    bareReal? digit? (ofSign negative ++ s.text) = some (s.number.toBinary64 negative) := by
  have hinf : s.text.lowerAscii ≠ ↑ "inf" := lowerAscii_text_ne h (by decide) _
  have hinfinity : s.text.lowerAscii ≠ ↑ "infinity" := lowerAscii_text_ne h (by decide) _
  have hnan : s.text.lowerAscii ≠ ↑ "nan" := lowerAscii_text_ne h (by decide) _
  simp only [bareReal?, splitSign_text h, ofText?_text hdigit h, Option.map_some]
  simp [hinf, hinfinity, hnan]

theorem bareReal?_ofReal (hdigit : ReadsDigits digit?) (x : Binary64) :
    bareReal? digit? (ofReal x) = some x.canonical := by
  unfold ofReal ofBinary64 Binary64.canonical
  split_ifs with hnan hinf
  · rfl
  · have hpositive : bareReal? digit? "inf" = some (Binary64.infinity false) := rfl
    have hnegative : bareReal? digit? "-inf" = some (Binary64.infinity true) := rfl
    have hx := Binary64.infinity_isNegative hinf
    cases hsign : x.isNegative with
    | false =>
      rw [hsign] at hx
      exact hpositive.trans (congrArg some hx)
    | true =>
      rw [hsign] at hx
      exact hnegative.trans (congrArg some hx)
  · have hfinite := Binary64.isFinite_of_not hnan hinf
    change bareReal? digit? (ofSign x.isNegative ++ ofDecimal x.shortest) = some x
    rw [← text_spelling, bareReal?_text hdigit (sound_spelling _), toBinary64_spelling,
      Binary64.ofDecimal_shortest hfinite]

def signs : Text := [↑ '.', ↑ 'e', ↑ '-', ↑ '+', ↑ 'n', ↑ 'a', ↑ 'i', ↑ 'f']

theorem ofSign_subset (negative : Bool) : ofSign negative ⊆ signs := by
  cases negative with
  | true => simp [ofSign_true, signs]
  | false => exact List.nil_subset _

theorem mem_ofReal {x : Binary64} {c : CodePoint} (h : c ∈ ofReal x) :
    (48 ≤ c.val ∧ c.val ≤ 57) ∨ c ∈ signs := by
  have hnan : [↑ 'n', ↑ 'a', ↑ 'n'] ⊆ signs := by simp [signs]
  have hinf : [↑ 'i', ↑ 'n', ↑ 'f'] ⊆ signs := by simp [signs]
  unfold ofReal ofBinary64 at h
  split_ifs at h
  · exact .inr (hnan h)
  · exact .inr ((List.mem_append.1 h).elim (ofSign_subset _ ·) (hinf ·))
  · rcases List.mem_append.1 h with h | h
    · exact .inr (ofSign_subset _ h)
    · change c ∈ ofDecimal x.shortest at h
      rw [← text_spelling] at h
      exact (Spelling.mem_text h).imp_right fun h => List.mem_append_left _ h

theorem trim_ofReal (x : Binary64) : (ofReal x).trim isBlank = ofReal x := by
  have hsigns : signs.all (!isBlank ·) = true := by decide
  refine Text.trim_of_forall fun c hc => ?_
  rcases mem_ofReal hc with hc | hc
  · simp [isBlank, CodePoint.isBlank]
    omega
  · simpa using List.all_eq_true.1 hsigns c hc

theorem real?_ofReal (x : Binary64) : real? (ofReal x) = some x.canonical := by
  rw [real?, trim_ofReal, bareReal?_ofReal decimal?_ofDecimal]

theorem ascii_ofReal (x : Binary64) : (ofReal x).Ascii := by
  have hsigns : Text.Ascii signs := by decide
  intro c hc
  rcases mem_ofReal hc with hc | hc
  · omega
  · exact hsigns c hc

end Numeral

end MaxEnt
