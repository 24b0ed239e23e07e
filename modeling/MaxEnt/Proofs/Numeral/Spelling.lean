import MaxEnt.Numeral.Real
import MaxEnt.Proofs.Binary64.Shortest

namespace MaxEnt.Numeral

def digitText (ds : List Nat) : Text := ds.map CodePoint.ofDecimal

theorem val_of_mem_digitText {ds : List Nat} {c : CodePoint} (h : c ∈ digitText ds) :
    48 ≤ c.val ∧ c.val ≤ 57 := by
  obtain ⟨d, -, rfl⟩ := List.mem_map.1 h
  exact val_ofDecimal d

theorem digitText_append (ds es : List Nat) : digitText (ds ++ es) = digitText ds ++ digitText es :=
  List.map_append

theorem digitText_zeros (count : Nat) : digitText (List.replicate count 0) = zeros count := by
  rw [digitText, List.map_replicate]
  rfl

theorem digitText_digits (n : Nat) : digitText (digits n) = ofNat n := rfl

theorem padded_eq (count n : Nat) :
    padded count n =
      digitText (List.replicate (count - (ofNat n).length) 0 ++ digits n) := by
  rw [digitText_append, digitText_zeros, digitText_digits, padded]

theorem ofDigits_append_zeros (ds : List Nat) (count : Nat) :
    ofDigits (ds ++ List.replicate count 0) = ofDigits ds * 10 ^ count := by
  induction count with
  | zero => simp
  | succ count ih =>
    rw [List.replicate_succ', ← List.append_assoc, ofDigits, List.foldl_append]
    change 10 * ofDigits (ds ++ List.replicate count 0) + 0 = _
    rw [ih, pow_succ]
    ring

theorem ofDigits_zeros_append (count : Nat) (ds : List Nat) :
    ofDigits (List.replicate count 0 ++ ds) = ofDigits ds := by
  induction count with
  | zero => rfl
  | succ count ih => exact ih

variable {digit? : CodePoint → Option Nat}

theorem mapM_digitText (hdigit : ReadsDigits digit?) {ds : List Nat} (h : ∀ d ∈ ds, d < 10) :
    (digitText ds).mapM digit? = some ds :=
  mapM_map_eq_some fun d hd => hdigit d (h d hd)

theorem groupedDigits?_digitText (hdigit : ReadsDigits digit?) {ds : List Nat} (hne : ds ≠ [])
    (h : ∀ d ∈ ds, d < 10) : groupedDigits? digit? (digitText ds) = some ds := by
  have hsplit : Text.splitOn '_' (digitText ds) = [digitText ds] :=
    Text.splitOn_of_not_mem fun hc => absurd (val_of_mem_digitText hc) (by decide)
  have hempty : digitText ds ≠ [] := by simpa [digitText] using hne
  simp [groupedDigits?, hsplit, hempty, mapM_digitText hdigit h]

/-- A numeral in parts: digits before and behind the point, and the power of ten if one is told. -/
structure Spelling where
  whole : List Nat
  fraction : List Nat
  power? : Option Int

namespace Spelling

def mantissa (s : Spelling) : Text :=
  digitText s.whole ++ if s.fraction.isEmpty then [] else ↑ '.' :: digitText s.fraction

def powerText (s : Spelling) : Text :=
  match s.power? with
  | some e => power e
  | none => []

def text (s : Spelling) : Text := s.mantissa ++ s.powerText

theorem text_of_fraction {whole fraction : List Nat} (h : fraction ≠ []) (power? : Option Int) :
    text ⟨whole, fraction, power?⟩ =
      digitText whole ++ (↑ '.' :: digitText fraction ++ powerText ⟨whole, fraction, power?⟩) := by
  have hempty : fraction.isEmpty = false := by simpa using h
  rw [text, mantissa, hempty, List.append_assoc]
  rfl

theorem text_of_whole (whole : List Nat) (power? : Option Int) :
    text ⟨whole, [], power?⟩ = digitText whole ++ powerText ⟨whole, [], power?⟩ := by
  rw [text, mantissa]
  simp

def number (s : Spelling) : Scientific := ⟨s.whole, s.fraction, s.power?.getD 0⟩

structure Sound (s : Spelling) : Prop where
  whole_ne_nil : s.whole ≠ []
  whole_lt_ten : ∀ d ∈ s.whole, d < 10
  fraction_lt_ten : ∀ d ∈ s.fraction, d < 10

def powerDigits (e : Int) : List Nat :=
  List.replicate (2 - (ofNat e.natAbs).length) 0 ++ digits e.natAbs

theorem power_eq (e : Int) :
    power e = ↑ 'e' :: (if e < 0 then ↑ '-' else ↑ '+') :: digitText (powerDigits e) := by
  rw [power, padded_eq, powerDigits]

theorem powerDigits_ne_nil (e : Int) : powerDigits e ≠ [] := by
  simp [powerDigits, digits, digitsOnto_ne_nil]

theorem powerDigits_lt_ten (e : Int) : ∀ d ∈ powerDigits e, d < 10 := by
  intro d hd
  rcases List.mem_append.1 hd with hd | hd
  · rw [List.eq_of_mem_replicate hd]
    decide
  · exact digits_lt_ten _ d hd

theorem ofDigits_powerDigits (e : Int) : ofDigits (powerDigits e) = e.natAbs := by
  rw [powerDigits, ofDigits_zeros_append, ofDigits_digits]

theorem mem_text {s : Spelling} {c : CodePoint} (h : c ∈ s.text) :
    (48 ≤ c.val ∧ c.val ≤ 57) ∨ c ∈ ([↑ '.', ↑ 'e', ↑ '-', ↑ '+'] : Text) := by
  rw [text, mantissa, powerText, List.append_assoc, List.mem_append, List.mem_append] at h
  rcases h with h | h | h
  · exact .inl (val_of_mem_digitText h)
  · split at h
    · cases h
    · rcases List.mem_cons.1 h with rfl | h
      · exact .inr (by simp)
      · exact .inl (val_of_mem_digitText h)
  · split at h
    · rename_i e _
      rw [power_eq] at h
      rcases List.mem_cons.1 h with rfl | h
      · exact .inr (by simp)
      · rcases List.mem_cons.1 h with rfl | h
        · right
          split <;> simp
        · exact .inl (val_of_mem_digitText h)
    · cases h

theorem Sound.head_text {s : Spelling} (h : s.Sound) :
    ∃ d t, d < 10 ∧ s.text = CodePoint.ofDecimal d :: t := by
  obtain ⟨d, ds, hds⟩ := List.exists_cons_of_ne_nil h.whole_ne_nil
  refine ⟨d, (digitText ds ++ if s.fraction.isEmpty then [] else ↑ '.' :: digitText s.fraction) ++
    s.powerText, h.whole_lt_ten d (by simp [hds]), ?_⟩
  rw [text, mantissa, hds]
  rfl

end Spelling

def spelling (d : Decimal) : Spelling :=
  let ds := digits d.significand
  let first : Int := ds.length - 1 + d.exponent
  if -4 ≤ first ∧ first < 16 then
    if 0 ≤ d.exponent then ⟨ds ++ List.replicate d.exponent.toNat 0, [0], none⟩
    else if 0 ≤ first then ⟨ds.take (first.toNat + 1), ds.drop (first.toNat + 1), none⟩
    else ⟨[0], List.replicate ((-first).toNat - 1) 0 ++ ds, none⟩
  else ⟨ds.take 1, ds.drop 1, some first⟩

theorem length_digits_pos (n : Nat) : 0 < (digits n).length := by
  rw [length_digits]
  omega

theorem drop_ofNat (count n : Nat) : (ofNat n).drop count = digitText ((digits n).drop count) :=
  List.map_drop.symm

theorem take_ofNat (count n : Nat) : (ofNat n).take count = digitText ((digits n).take count) :=
  List.map_take.symm

theorem concat_cons (t : Text) (ts : List Text) : Text.concat (t :: ts) = t ++ Text.concat ts :=
  List.flatten_cons

theorem concat_nil : Text.concat [] = [] := rfl

theorem text_spelling (d : Decimal) : (spelling d).text = ofDecimal d := by
  have hpos := length_digits_pos d.significand
  unfold spelling ofDecimal
  simp only [Bool.and_eq_true, decide_eq_true_eq, length_ofNat_eq, concat_cons, concat_nil,
    drop_ofNat, take_ofNat]
  split_ifs with hplain hexp hfirst hone
  · rw [Spelling.text_of_fraction (by decide), digitText_append, digitText_zeros, List.append_assoc]
    rfl
  · rw [Spelling.text_of_fraction (by rw [ne_eq, List.drop_eq_nil_iff]; omega)]
    rfl
  · rw [Spelling.text_of_fraction (by simp [digits, digitsOnto_ne_nil]), digitText_append,
      digitText_zeros]
    simp [Spelling.powerText]
    rfl
  · have hdrop : (digits d.significand).drop 1 = [] := List.drop_eq_nil_iff.2 hone
    rw [hdrop, Spelling.text_of_whole, List.take_of_length_le hone]
    rfl
  · rw [Spelling.text_of_fraction (by rw [ne_eq, List.drop_eq_nil_iff]; omega)]
    simp [Spelling.powerText]
    rfl

theorem sound_spelling (d : Decimal) : (spelling d).Sound := by
  have hpos := length_digits_pos d.significand
  have hne : digits d.significand ≠ [] := List.ne_nil_of_length_pos hpos
  have hlt := digits_lt_ten d.significand
  have hzeros : ∀ count, ∀ e ∈ List.replicate count 0, e < 10 := by
    intro count e he
    rw [List.eq_of_mem_replicate he]
    decide
  unfold spelling
  simp only
  split_ifs with hplain hexp hfirst
  · refine ⟨by simp [hne], ?_, by simp⟩
    exact List.forall_mem_append.2 ⟨hlt, hzeros _⟩
  · exact ⟨by simp [hne], fun e he => hlt e (List.mem_of_mem_take he),
      fun e he => hlt e (List.mem_of_mem_drop he)⟩
  · exact ⟨by simp, by simp, List.forall_mem_append.2 ⟨hzeros _, hlt⟩⟩
  · exact ⟨by simp [hne], fun e he => hlt e (List.mem_of_mem_take he),
      fun e he => hlt e (List.mem_of_mem_drop he)⟩

theorem number_spelling (d : Decimal) :
    ∃ count : Nat, ofDigits ((spelling d).number.whole ++ (spelling d).number.fraction) =
        d.significand * 10 ^ count ∧
      (spelling d).number.exponent - (spelling d).number.fraction.length = d.exponent - count := by
  have hpos := length_digits_pos d.significand
  unfold spelling
  simp only
  split_ifs with hplain hexp hfirst
  · refine ⟨d.exponent.toNat + 1, ?_, ?_⟩
    · have hzero : digits d.significand ++ List.replicate d.exponent.toNat 0 ++ [0] =
          digits d.significand ++ List.replicate (d.exponent.toNat + 1) 0 := by
        rw [List.replicate_succ', List.append_assoc]
      rw [Spelling.number, hzero, ofDigits_append_zeros, ofDigits_digits]
    · simp only [Spelling.number, Option.getD_none, List.length_singleton]
      omega
  · refine ⟨0, ?_, ?_⟩
    · rw [Spelling.number, List.take_append_drop, ofDigits_digits, pow_zero, Nat.mul_one]
    · simp only [Spelling.number, Option.getD_none, List.length_drop]
      omega
  · refine ⟨0, ?_, ?_⟩
    · rw [Spelling.number, pow_zero, Nat.mul_one]
      exact (ofDigits_zeros_append _ _).trans (ofDigits_digits _)
    · simp only [Spelling.number, Option.getD_none, List.length_append, List.length_replicate]
      omega
  · refine ⟨0, ?_, ?_⟩
    · rw [Spelling.number, List.take_append_drop, ofDigits_digits, pow_zero, Nat.mul_one]
    · simp only [Spelling.number, Option.getD_some, List.length_drop]
      omega

/-- A reader of the spelling gets the double that the decimal is read as. -/
theorem toBinary64_spelling (d : Decimal) (negative : Bool) :
    (spelling d).number.toBinary64 negative =
      Binary64.ofDecimal negative d.significand d.exponent := by
  obtain ⟨count, hdigits, hexp⟩ := number_spelling d
  rw [Scientific.toBinary64, hdigits, hexp, Binary64.ofDecimal_mul_pow, Int.sub_add_cancel]

end MaxEnt.Numeral
