import MaxEnt.Proofs.Numeral.Order
import MaxEnt.Proofs.Text.Trim

namespace MaxEnt

theorem CodePoint.exists_of_decimal? {c : CodePoint} {d : Nat} (h : c.decimal? = some d) :
    ∃ z ∈ decimalZeros, ∃ i : Fin 10, c = Fin.ofNat 0x110000 (z + i) ∧ d = i := by
  obtain ⟨z, hz, rfl⟩ := Option.map_eq_some_iff.1 h
  have hrow : z ≤ c.val ∧ c.val < z + 10 := by simpa using List.find?_some hz
  refine ⟨z, List.mem_of_find?_eq_some hz, ⟨c.val - z, by omega⟩, Fin.ext ?_, rfl⟩
  have hc := c.isLt
  rw [Fin.val_ofNat, Nat.mod_eq_of_lt] <;> simp only <;> omega

namespace Numeral

def IsInner (c : CodePoint) : Prop := isBlank c = false ∧ c ≠ ↑ '-' ∧ c ≠ ↑ '+'

instance (c : CodePoint) : Decidable (IsInner c) := inferInstanceAs (Decidable (_ ∧ _))

theorem isInner_of_decimal? {c : CodePoint} {d : Nat} (h : c.decimal? = some d) :
    IsInner c ∧ c ≠ ↑ '_' ∧ d < 10 := by
  have hall : ∀ z ∈ CodePoint.decimalZeros, ∀ i : Fin 10,
      IsInner (Fin.ofNat 0x110000 (z + i)) ∧ Fin.ofNat 0x110000 (z + i) ≠ CodePoint.ofChar '_' := by
    decide +kernel
  obtain ⟨z, hz, i, rfl, rfl⟩ := CodePoint.exists_of_decimal? h
  exact ⟨(hall z hz i).1, (hall z hz i).2, i.isLt⟩

/-- Digits of any script, in groups with single underscores between them, and the values of the
digits. -/
def Grouped (t : Text) (ds : List Nat) : Prop :=
  ∃ groups : List Text, groups ≠ [] ∧ (∀ g ∈ groups, g ≠ []) ∧
    List.Forall₂ (fun c d => CodePoint.decimal? c = some d) groups.flatten ds ∧
    t = List.intercalate [↑ '_'] groups

inductive Sign : Text → Bool → Prop
  | none : Sign [] false
  | plus : Sign [↑ '+'] false
  | minus : Sign [↑ '-'] true

/-- The integer that a text is: a sign and digits, not too many of them, with blanks around. -/
inductive IsInteger : Text → Int → Prop
  | intro {sign body t : Text} {negative : Bool} {ds : List Nat} (hsign : Sign sign negative)
      (hbody : Grouped body ds) (hlength : ds.length ≤ maxDigits)
      (ht : Text.Padded isBlank (sign ++ body) t) : IsInteger t (signed negative (ofDigits ds))

variable {t sign body : Text} {ds : List Nat} {negative : Bool} {n : Int}

theorem isInner_of_digits (h : List.Forall₂ (fun c d => CodePoint.decimal? c = some d) t ds) :
    (∀ c ∈ t, IsInner c ∧ c ≠ ↑ '_') ∧ ∀ d ∈ ds, d < 10 := by
  induction h with
  | nil => simp
  | cons hd _ ih =>
    obtain ⟨hinner, hjoint, hlt⟩ := isInner_of_decimal? hd
    exact ⟨List.forall_mem_cons.2 ⟨⟨hinner, hjoint⟩, ih.1⟩, List.forall_mem_cons.2 ⟨hlt, ih.2⟩⟩

theorem Grouped.isInner (h : Grouped t ds) : ∀ c ∈ t, IsInner c := by
  obtain ⟨groups, -, -, hdigits, rfl⟩ := h
  refine Text.forall_mem_intercalate (List.forall_mem_singleton.2 (by decide)) fun g hg c hc => ?_
  exact ((isInner_of_digits hdigits).1 c (List.mem_flatten_of_mem hg hc)).1

theorem Grouped.lt_ten (h : Grouped t ds) : ∀ d ∈ ds, d < 10 := by
  obtain ⟨groups, -, -, hdigits, -⟩ := h
  exact (isInner_of_digits hdigits).2

theorem groupedDigits?_eq_some_iff :
    groupedDigits? CodePoint.decimal? t = some ds ↔ Grouped t ds := by
  constructor
  · intro h
    rw [groupedDigits?] at h
    split at h
    · cases h
    · rename_i hempty
      refine ⟨t.splitOn '_', Text.splitOn_ne_nil _ t, fun g hg hnil => hempty ?_,
        mapM_eq_some_iff.1 h, (Text.intercalate_splitOn _ t).symm⟩
      exact List.any_eq_true.2 ⟨g, hg, List.isEmpty_iff.2 hnil⟩
  · rintro ⟨groups, hne, hgroups, hdigits, rfl⟩
    have hjoint : ∀ g ∈ groups, ↑ '_' ∉ g := fun g hg hm =>
      ((isInner_of_digits hdigits).1 _ (List.mem_flatten_of_mem hg hm)).2 rfl
    have hempty : ¬ groups.any List.isEmpty = true := by
      rw [List.any_eq_true]
      rintro ⟨g, hg, hnil⟩
      exact hgroups g hg (List.isEmpty_iff.1 hnil)
    rw [groupedDigits?, Text.splitOn_intercalate hne hjoint]
    exact (if_neg hempty).trans (mapM_eq_some_iff.2 hdigits)

theorem exists_sign (t : Text) : ∃ sign, Sign sign (splitSign t).1 ∧ t = sign ++ (splitSign t).2 := by
  cases t with
  | nil => exact ⟨[], .none, rfl⟩
  | cons c t =>
    rw [splitSign]
    split
    · rename_i hminus
      exact ⟨[↑ '-'], .minus, by rw [hminus]; rfl⟩
    · split
      · rename_i hplus
        exact ⟨[↑ '+'], .plus, by rw [hplus]; rfl⟩
      · exact ⟨[], .none, rfl⟩

theorem splitSign_append (h : Sign sign negative) (hbody : ∀ c ∈ body, IsInner c) :
    splitSign (sign ++ body) = (negative, body) := by
  cases h with
  | none =>
    cases body with
    | nil => rfl
    | cons c body =>
      obtain ⟨-, hminus, hplus⟩ := hbody c List.mem_cons_self
      exact (if_neg hminus).trans (if_neg hplus)
  | plus => rfl
  | minus => rfl

theorem Sign.isBlank_eq_false (h : Sign sign negative) : ∀ c ∈ sign, isBlank c = false := by
  cases h with
  | none => exact List.forall_mem_nil _
  | plus => exact List.forall_mem_singleton.2 (by decide)
  | minus => exact List.forall_mem_singleton.2 (by decide)

theorem integer?_eq_some_iff : integer? t = some n ↔ IsInteger t n := by
  constructor
  · intro h
    rw [integer?] at h
    cases hdigits : groupedDigits? CodePoint.decimal? (splitSign (t.trim isBlank)).2 with
    | none => simp [hdigits] at h
    | some ds =>
      obtain ⟨hlength, rfl⟩ : ds.length ≤ maxDigits ∧
          signed (splitSign (t.trim isBlank)).1 (ofDigits ds) = n := by simpa [hdigits] using h
      obtain ⟨sign, hsign, htrim⟩ := exists_sign (t.trim isBlank)
      refine .intro hsign (groupedDigits?_eq_some_iff.1 hdigits) hlength ?_
      rw [← htrim]
      exact Text.padded_trim isBlank t
  · rintro ⟨hsign, hbody, hlength, ht⟩
    rename_i sign body negative ds
    have htrimmed : (sign ++ body).Trimmed isBlank := Text.trimmed_of_forall
      (List.forall_mem_append.2 ⟨hsign.isBlank_eq_false, fun c hc => (hbody.isInner c hc).1⟩)
    simp only [integer?, Text.trim_eq_iff.2 ⟨htrimmed, ht⟩, splitSign_append hsign hbody.isInner,
      groupedDigits?_eq_some_iff.2 hbody, if_pos hlength]

theorem integer?_eq_none_iff : integer? t = none ↔ ∀ n, ¬ IsInteger t n := by
  simp only [Option.eq_none_iff_forall_ne_some, ne_eq, integer?_eq_some_iff]

theorem IsInteger.natAbs_lt (h : IsInteger t n) : n.natAbs < 10 ^ maxDigits := by
  cases h with
  | @intro _ _ _ negative ds _ hbody hlength _ =>
    have hsigned : (signed negative (ofDigits ds)).natAbs = ofDigits ds := by
      cases negative <;> simp [signed]
    rw [hsigned]
    exact (ofDigits_lt hbody.lt_ten).trans_le (Nat.pow_le_pow_right (by decide) hlength)

end Numeral

end MaxEnt
