import MaxEnt.Json.Parser
import MaxEnt.Json.Printer
import MaxEnt.Proofs.Numeral.Real

namespace MaxEnt

namespace Numeral

theorem digits_zero : digits 0 = [0] := by
  rw [digits, digitsOnto, if_pos (by decide)]

theorem digitsOnto_eq_cons (n : Nat) (low : List Nat) :
    ∃ d ds, digitsOnto n low = d :: ds ∧ (n ≠ 0 → d ≠ 0) := by
  induction n, low using digitsOnto.induct with
  | case1 n low h =>
    rw [digitsOnto, if_pos h]
    exact ⟨n, low, rfl, id⟩
  | case2 n low h ih =>
    obtain ⟨d, ds, hds, hd⟩ := ih
    rw [digitsOnto, if_neg h]
    exact ⟨d, ds, hds, fun _ => hd (by omega)⟩

def Leading (ds : List Nat) : Prop := ds = [0] ∨ ∃ d es, ds = d :: es ∧ d ≠ 0

theorem Leading.ne_nil {ds : List Nat} (h : Leading ds) : ds ≠ [] := by
  rcases h with rfl | ⟨d, es, rfl, -⟩ <;> simp

theorem leading_digits (n : Nat) : Leading (digits n) := by
  by_cases hn : n = 0
  · rw [hn]
    exact .inl digits_zero
  · obtain ⟨d, ds, hds, hd⟩ := digitsOnto_eq_cons n []
    exact .inr ⟨d, ds, hds, hd hn⟩

theorem Leading.take {ds : List Nat} (h : Leading ds) (count : Nat) :
    Leading (ds.take (count + 1)) := by
  rcases h with rfl | ⟨d, es, rfl, hd⟩
  · exact .inl (by simp)
  · exact .inr ⟨d, es.take count, rfl, hd⟩

theorem Leading.append {ds : List Nat} (h : Leading ds) (hzero : ds ≠ [0]) (es : List Nat) :
    Leading (ds ++ es) := by
  rcases h with h | ⟨d, fs, rfl, hd⟩
  · exact absurd h hzero
  · exact .inr ⟨d, fs ++ es, rfl, hd⟩

theorem leading_spelling {d : Decimal} (h : d.significand = 0 → d.exponent = 0) :
    Leading (spelling d).whole := by
  have hdigits := leading_digits d.significand
  unfold spelling
  simp only
  split_ifs with hplain hexp hfirst
  · by_cases hzero : d.significand = 0
    · rw [hzero, h hzero, digits_zero]
      exact .inl rfl
    · refine hdigits.append (fun he => hzero ?_) _
      rw [← ofDigits_digits d.significand, he]
      rfl
  · exact hdigits.take _
  · exact .inl rfl
  · exact hdigits.take 0

theorem fraction_or_power_spelling (d : Decimal) :
    (spelling d).fraction ≠ [] ∨ (spelling d).power?.isSome = true := by
  have hpos := length_digits_pos d.significand
  unfold spelling
  simp only
  split_ifs with hplain hexp hfirst
  · exact .inl (by simp)
  · refine .inl ?_
    rw [ne_eq, List.drop_eq_nil_iff]
    omega
  · exact .inl (by simp [digits, digitsOnto_ne_nil])
  · exact .inr rfl

end Numeral

theorem Binary64.exponent_shortest_of_zero {x : Binary64} (hfinite : x.isFinite = true)
    (h : x.shortest.significand = 0) : x.shortest.exponent = 0 := by
  have hx := ofDecimal_shortest hfinite
  rw [h, ofDecimal_zero] at hx
  have hzero : x.magnitude = 0 := by
    rw [← hx]
    cases x.isNegative <;> decide
  rw [shortest, if_pos hzero]

namespace Json

open Numeral

/-- No number goes on here: there is no digit, no point and no exponent. -/
def Stops (t : Text) : Prop :=
  ∀ c, t.head? = some c → isDigit c = false ∧ c ≠ ↑ '.' ∧ c.lowerAscii ≠ ↑ 'e'

theorem isDigit_iff (c : CodePoint) : isDigit c = true ↔ 48 ≤ c.val ∧ c.val ≤ 57 := by
  rw [isDigit, CodePoint.asciiDecimal?]
  split
  · rename_i h
    simpa using h
  · rename_i h
    simpa using h

theorem isDigit_of_mem {ds : List Nat} : ∀ c ∈ digitText ds, isDigit c = true :=
  fun c hc => (isDigit_iff c).2 (val_of_mem_digitText hc)

theorem digitsOf_digitText {ds : List Nat} (h : ∀ d ∈ ds, d < 10) : digitsOf (digitText ds) = ds := by
  induction ds with
  | nil => rfl
  | cons d ds ih =>
    have hd := asciiDecimal?_ofDecimal d (h d (by simp))
    have hds := ih fun e he => h e (List.mem_cons_of_mem d he)
    rw [digitsOf] at hds
    rw [digitsOf, digitText, List.map_cons, List.filterMap_cons_some hd]
    exact congrArg (d :: ·) hds

section Parts

variable {ds : List Nat} {u : Text}

theorem parseWhole_digitText (hlt : ∀ d ∈ ds, d < 10) (hds : Leading ds)
    (hu : ∀ c, u.head? = some c → isDigit c = false) :
    parseWhole (digitText ds ++ u) = some (digitText ds, u) := by
  rcases hds with rfl | ⟨d, es, rfl, hd⟩
  · rfl
  · have hlt := hlt d (by simp)
    have hdigit : isDigit (CodePoint.ofDecimal d) = true := (isDigit_iff _).2 (val_ofDecimal d)
    have hzero : ¬ CodePoint.ofDecimal d = ↑ '0' := by
      intro he
      have hd' := asciiDecimal?_ofDecimal d hlt
      rw [he] at hd'
      exact hd (Option.some.inj hd').symm
    change parseWhole (CodePoint.ofDecimal d :: (digitText es ++ u)) = _
    rw [parseWhole, if_neg hzero, if_pos hdigit, Text.takeWhile_append isDigit_of_mem hu,
      Text.dropWhile_append isDigit_of_mem hu]
    rfl

theorem head_digitText_append (hne : ds ≠ []) (u : Text) :
    (digitText ds ++ u).head?.any isDigit = true := by
  obtain ⟨d, es, rfl⟩ := List.exists_cons_of_ne_nil hne
  exact (isDigit_iff _).2 (val_ofDecimal d)

theorem parseFraction_digitText (hne : ds ≠ []) (hu : ∀ c, u.head? = some c → isDigit c = false) :
    parseFraction (↑ '.' :: (digitText ds ++ u)) = (digitText ds, u) := by
  rw [parseFraction, head_digitText_append hne, if_pos (by rfl),
    Text.takeWhile_append isDigit_of_mem hu, Text.dropWhile_append isDigit_of_mem hu]

theorem parseFraction_of_head (hu : ∀ c, u.head? = some c → c ≠ ↑ '.') : parseFraction u = ([], u) := by
  cases u with
  | nil => rfl
  | cons c u => simp [parseFraction, hu c rfl]

theorem parsePower_of_head (hu : ∀ c, u.head? = some c → c.lowerAscii ≠ ↑ 'e') :
    parsePower u = (none, u) := by
  cases u with
  | nil => rfl
  | cons c u => simp [parsePower, hu c rfl]

theorem splitSign_powerSign (e : Int) (t : Text) :
    splitSign ((if e < 0 then ↑ '-' else ↑ '+') :: t) = (decide (e < 0), t) := by
  by_cases he : e < 0
  · rw [if_pos he, decide_eq_true he]
    rfl
  · rw [if_neg he, decide_eq_false he]
    rfl

theorem parsePower_power (e : Int) (hu : ∀ c, u.head? = some c → isDigit c = false) :
    parsePower (power e ++ u) = (some e, u) := by
  have hmark : (CodePoint.lowerAscii ↑ 'e') = ↑ 'e' := by decide
  rw [Spelling.power_eq, List.cons_append, List.cons_append, parsePower]
  simp only [splitSign_powerSign, hmark, head_digitText_append (Spelling.powerDigits_ne_nil e) u,
    Text.takeWhile_append isDigit_of_mem hu, Text.dropWhile_append isDigit_of_mem hu,
    digitsOf_digitText (Spelling.powerDigits_lt_ten e), Spelling.ofDigits_powerDigits,
    signed_natAbs]
  simp

end Parts

theorem parsePower_powerText (s : Spelling) {u : Text} (hu : Stops u) :
    parsePower (s.powerText ++ u) = (s.power?, u) := by
  rw [Spelling.powerText]
  cases hp : s.power? with
  | none => exact parsePower_of_head fun c hc => (hu c hc).2.2
  | some e => exact parsePower_power e fun c hc => (hu c hc).1

theorem head_powerText_append {s : Spelling} {u : Text} (hu : Stops u) (c : CodePoint)
    (hc : (s.powerText ++ u).head? = some c) : isDigit c = false ∧ c ≠ ↑ '.' := by
  rw [Spelling.powerText] at hc
  cases hp : s.power? with
  | none =>
    rw [hp] at hc
    exact ⟨(hu c hc).1, (hu c hc).2.1⟩
  | some e =>
    rw [hp] at hc
    obtain rfl : ↑ 'e' = c := Option.some.inj hc
    decide

theorem parseUnsigned_text {s : Spelling} (hs : s.Sound) (hwhole : Leading s.whole) (negative : Bool)
    {u : Text} (hu : Stops u) :
    parseUnsigned negative (s.text ++ u) =
      if !s.fraction.isEmpty || s.power?.isSome then .ok (real (s.number.toBinary64 negative), u)
      else if s.whole.length ≤ maxDigits then .ok (int (signed negative (ofDigits s.whole)), u)
      else .error .tooManyDigits := by
  have hpower := parsePower_powerText s hu
  have hstop := fun c hc => head_powerText_append (s := s) hu c hc
  obtain ⟨whole, fraction, power?⟩ := s
  have hlength : (digitText whole).length = whole.length := List.length_map _
  cases fraction with
  | nil =>
    have hparsed := parseWhole_digitText hs.whole_lt_ten hwhole fun c hc => (hstop c hc).1
    rw [Spelling.text_of_whole, List.append_assoc, parseUnsigned, hparsed]
    simp only [parseFraction_of_head fun c hc => (hstop c hc).2, hpower,
      digitsOf_digitText hs.whole_lt_ten, hlength]
    rfl
  | cons d ds =>
    have hne : d :: ds ≠ [] := List.cons_ne_nil d ds
    have hparsed := parseWhole_digitText (u := ↑ '.' :: (digitText (d :: ds) ++
      (Spelling.powerText ⟨whole, d :: ds, power?⟩ ++ u))) hs.whole_lt_ten hwhole
      fun c hc => by
        obtain rfl : ↑ '.' = c := Option.some.inj hc
        decide
    rw [Spelling.text_of_fraction hne, List.append_assoc, List.append_assoc, List.cons_append,
      parseUnsigned, hparsed]
    simp only [parseFraction_digitText hne fun c hc => (hstop c hc).1, hpower,
      digitsOf_digitText hs.whole_lt_ten, digitsOf_digitText hs.fraction_lt_ten]
    rfl

end Json

end MaxEnt
