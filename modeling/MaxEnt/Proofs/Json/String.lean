import Mathlib.Tactic.SplitIfs
import MaxEnt.Json.Parser
import MaxEnt.Json.Printer
import MaxEnt.Proofs.Text.Ascii
import MaxEnt.Proofs.Text.ModifiedUtf8

namespace MaxEnt

theorem CodePoint.hex?_ofHex {d : Nat} (h : d < 16) : (CodePoint.ofHex d).hex? = some d := by
  have hall : ∀ d : Fin 16, (CodePoint.ofHex d).hex? = some d.val := by decide
  exact hall ⟨d, h⟩

theorem CodePoint.ascii_ofHex {d : Nat} (h : d < 16) :
    32 ≤ (CodePoint.ofHex d).val ∧ (CodePoint.ofHex d).val ≤ 126 := by
  have hall : ∀ d : Fin 16, 32 ≤ (CodePoint.ofHex d).val ∧ (CodePoint.ofHex d).val ≤ 126 := by decide
  exact hall ⟨d, h⟩

theorem CodePoint.map_ofUnit_units {c : CodePoint} (h : c.val < 0x10000) :
    c.units.map CodePoint.ofUnit = [c] := by
  rw [CodePoint.units, dif_pos h]
  rfl

namespace Json

variable {done t : Text} {c e : CodePoint}

theorem parseString_end (done t : Text) :
    parseString done (↑ '"' :: t) = some (Text.joinSurrogates done.reverse, t) := by
  rw [parseString.eq_def]
  simp only [if_true]

theorem parseString_plain (hquote : c ≠ ↑ '"') (hslash : c ≠ ↑ '\\') (hval : 32 ≤ c.val) :
    parseString done (c :: t) = parseString (c :: done) t := by
  have hshown : ¬ c.val < 32 := by omega
  rw [parseString.eq_def]
  simp only [if_neg hquote, if_neg hslash, if_neg hshown]

theorem parseString_slash (hunit : e ≠ ↑ 'u') (h : unescape? e = some c) :
    parseString done (↑ '\\' :: e :: t) = parseString (c :: done) t := by
  have hquote : (↑ '\\' : CodePoint) ≠ ↑ '"' := by decide
  rw [parseString.eq_def]
  simp only [if_neg hquote, if_neg hunit, h, if_true]

theorem hexDigits_four (n : Nat) :
    Text.hexDigits 4 n = [CodePoint.ofHex (n / 4096 % 16), CodePoint.ofHex (n / 256 % 16),
      CodePoint.ofHex (n / 16 % 16), CodePoint.ofHex (n % 16)] := by
  rw [Text.hexDigits]
  change [CodePoint.ofHex (n / 4096 % 16), CodePoint.ofHex (n / 256 % 16),
    CodePoint.ofHex (n / 16 % 16), CodePoint.ofHex (n / 1 % 16)] = _
  rw [Nat.div_one]

theorem hex4?_ofUnit (u : CodeUnit) :
    hex4? (CodePoint.ofHex (u.val / 4096 % 16)) (CodePoint.ofHex (u.val / 256 % 16))
      (CodePoint.ofHex (u.val / 16 % 16)) (CodePoint.ofHex (u.val % 16)) =
      some (CodePoint.ofUnit u) := by
  have hu := u.isLt
  have hlt : ∀ n, n % 16 < 16 := fun n => Nat.mod_lt n (by decide)
  simp only [hex4?, CodePoint.hex?_ofHex (hlt _)]
  congr 1
  apply Fin.ext
  simp only [Fin.ofNat, CodePoint.ofUnit]
  omega

theorem parseString_escapeUnit (done : Text) (u : CodeUnit) (t : Text) :
    parseString done (escapeUnit u ++ t) = parseString (CodePoint.ofUnit u :: done) t := by
  have hquote : (↑ '\\' : CodePoint) ≠ ↑ '"' := by decide
  have hescape : escapeUnit u ++ t = ↑ '\\' :: ↑ 'u' :: (Text.hexDigits 4 u.val ++ t) := rfl
  rw [hescape, hexDigits_four, parseString.eq_def]
  simp only [if_neg hquote, List.cons_append, hex4?_ofUnit, if_true, List.nil_append]

theorem parseString_escapeUnits (done : Text) (us : List CodeUnit) (t : Text) :
    parseString done (us.flatMap escapeUnit ++ t) =
      parseString ((us.map CodePoint.ofUnit).reverse ++ done) t := by
  induction us generalizing done with
  | nil => rfl
  | cons u us ih =>
    rw [List.flatMap_cons, List.append_assoc, parseString_escapeUnit, ih, List.map_cons,
      List.reverse_cons, List.append_assoc]
    rfl

theorem parseString_escape (done : Text) (c : CodePoint) (t : Text) :
    parseString done (escape c ++ t) =
      parseString ((c.units.map CodePoint.ofUnit).reverse ++ done) t := by
  have hone : ∀ {d : CodePoint}, d.val < 0x10000 →
      (d.units.map CodePoint.ofUnit).reverse ++ done = d :: done := fun h => by
    rw [CodePoint.map_ofUnit_units h]
    rfl
  unfold escape
  simp only [Bool.or_eq_true, Bool.and_eq_true, decide_eq_true_eq]
  split_ifs with hmark hfeed hreturn htab hback hform hplain
  · rw [hone (by rcases hmark with rfl | rfl <;> decide)]
    refine parseString_slash ?_ ?_
    · rcases hmark with rfl | rfl <;> decide
    · rcases hmark with rfl | rfl <;> decide
  · rw [hfeed, hone (by decide)]
    exact parseString_slash (by decide) (by decide)
  · rw [hreturn, hone (by decide)]
    exact parseString_slash (by decide) (by decide)
  · rw [htab, hone (by decide)]
    exact parseString_slash (by decide) (by decide)
  · obtain rfl : c = 8 := Fin.ext hback
    rw [hone (by decide)]
    exact parseString_slash (by decide) (by decide)
  · obtain rfl : c = 12 := Fin.ext hform
    rw [hone (by decide)]
    exact parseString_slash (by decide) (by decide)
  · rw [hone (by omega)]
    exact parseString_plain (fun h => hmark (.inl h)) (fun h => hmark (.inr h)) hplain.1
  · exact parseString_escapeUnits done c.units t

theorem parseString_flatMap (done u t : Text) :
    parseString done (u.flatMap escape ++ t) =
      parseString ((u.units.map CodePoint.ofUnit).reverse ++ done) t := by
  induction u generalizing done with
  | nil => rfl
  | cons c u ih =>
    have hunits : Text.units (c :: u) = c.units ++ Text.units u := rfl
    rw [List.flatMap_cons, List.append_assoc, parseString_escape, ih, hunits, List.map_append,
      List.reverse_append, List.append_assoc]

theorem parseString_stringText {u : Text} (h : ModifiedUtf8.Unpaired u) (t : Text) :
    parseString [] (u.flatMap escape ++ ↑ '"' :: t) = some (u, t) := by
  have hunits : Text.joinSurrogates (u.units.map CodePoint.ofUnit) = u := by
    rw [← Text.ofUnits, ModifiedUtf8.ofUnits_units, ModifiedUtf8.joinSurrogates_of_unpaired h]
  rw [parseString_flatMap, parseString_end, List.append_nil, List.reverse_reverse, hunits]

theorem stringText_eq (u : Text) : stringText u = ↑ '"' :: (u.flatMap escape ++ [CodePoint.ofChar '"']) := by
  simp [stringText, Text.concat]
  rfl

theorem ascii_escapeUnit (u : CodeUnit) : (escapeUnit u).Ascii := by
  have hlt : ∀ n, n % 16 < 16 := fun n => Nat.mod_lt n (by decide)
  have hstart : Text.Ascii (Text.ofString "\\u") := by decide
  rw [escapeUnit, hexDigits_four]
  refine hstart.append ?_
  exact (((Text.Ascii.nil.cons (CodePoint.ascii_ofHex (hlt _))).cons
    (CodePoint.ascii_ofHex (hlt _))).cons (CodePoint.ascii_ofHex (hlt _))).cons
      (CodePoint.ascii_ofHex (hlt _))

theorem ascii_escape (c : CodePoint) : (escape c).Ascii := by
  unfold escape
  simp only [Bool.or_eq_true, Bool.and_eq_true, decide_eq_true_eq]
  split_ifs with hmark hfeed hreturn htab hback hform hplain
  · rcases hmark with rfl | rfl <;> decide
  · decide
  · decide
  · decide
  · decide
  · decide
  · exact Text.Ascii.nil.cons hplain
  · exact .flatMap fun u _ => ascii_escapeUnit u

theorem ascii_stringText (u : Text) : (stringText u).Ascii := by
  rw [stringText_eq]
  exact ((Text.Ascii.flatMap fun c _ => ascii_escape c).append (by decide)).cons (by decide)

end Json

end MaxEnt
