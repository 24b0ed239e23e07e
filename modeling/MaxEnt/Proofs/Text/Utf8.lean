import Mathlib.Tactic.SplitIfs
import MaxEnt.Proofs.Text.ModifiedUtf8
import MaxEnt.Text.Utf8

namespace MaxEnt.Utf8

theorem isSurrogate_iff (c : CodePoint) : c.isSurrogate = true ↔ 0xD800 ≤ c.val ∧ c.val < 0xE000 := by
  simp only [CodePoint.isSurrogate, Bool.or_eq_true, ModifiedUtf8.isHighSurrogate_iff,
    ModifiedUtf8.isLowSurrogate_iff]
  omega

section Steps

variable {done : Text} {b : UInt8} {bytes : List UInt8} {p : Pending}

theorem decodeFrom_ascii (h : b.toNat < 0x80) :
    decodeFrom done none (b :: bytes) = decodeFrom (codePoint b.toNat :: done) none bytes := by
  rw [decodeFrom, if_pos h]

theorem decodeFrom_lead (h : ¬ b.toNat < 0x80) (hp : Pending.ofLead b.toNat = some p) :
    decodeFrom done none (b :: bytes) = decodeFrom done (some p) bytes := by
  rw [decodeFrom, if_neg h, hp]

theorem decodeFrom_last (hlow : p.low ≤ b.toNat) (hhigh : b.toNat ≤ p.high) (howed : p.owed ≤ 1) :
    decodeFrom done (some p) (b :: bytes) =
      decodeFrom (codePoint (p.bits * 64 + b.toNat % 64) :: done) none bytes := by
  rw [decodeFrom, if_pos (by simp [hlow, hhigh]), if_pos howed]

theorem decodeFrom_more (hlow : p.low ≤ b.toNat) (hhigh : b.toNat ≤ p.high) (howed : ¬ p.owed ≤ 1) :
    decodeFrom done (some p) (b :: bytes) =
      decodeFrom done (some ⟨p.owed - 1, p.bits * 64 + b.toNat % 64, 0x80, 0xBF⟩) bytes := by
  rw [decodeFrom, if_pos (by simp [hlow, hhigh]), if_neg howed]

end Steps

theorem ofLead_two {n : Nat} (hlow : 0x80 ≤ n) (hhigh : n < 0x800) :
    Pending.ofLead (0xC0 + n / 64) = some ⟨1, n / 64, 0x80, 0xBF⟩ := by
  rw [Pending.ofLead, if_pos (by simp; omega), Nat.add_sub_cancel_left]

/-- The bounds that the first of three bytes sets for the second admit every code point but the
surrogates. -/
theorem ofLead_three {n : Nat} (hlow : 0x800 ≤ n) (hhigh : n < 0x10000)
    (h : ¬ (0xD800 ≤ n ∧ n < 0xE000)) :
    ∃ bits low high, Pending.ofLead (0xE0 + n / 4096) = some ⟨2, bits, low, high⟩ ∧
      bits = n / 4096 ∧ low ≤ 0x80 + n / 64 % 64 ∧ 0x80 + n / 64 % 64 ≤ high := by
  unfold Pending.ofLead
  simp only [Bool.and_eq_true, decide_eq_true_eq, beq_iff_eq]
  split_ifs
  · omega
  · exact ⟨_, _, _, rfl, by omega, by omega, by omega⟩
  · exact ⟨_, _, _, rfl, by omega, by omega, by omega⟩
  · exact ⟨_, _, _, rfl, by omega, by omega, by omega⟩
  all_goals omega

theorem ofLead_four {n : Nat} (hlow : 0x10000 ≤ n) (hhigh : n < 0x110000) :
    ∃ bits low high, Pending.ofLead (0xF0 + n / 262144) = some ⟨3, bits, low, high⟩ ∧
      bits = n / 262144 ∧ low ≤ 0x80 + n / 4096 % 64 ∧ 0x80 + n / 4096 % 64 ≤ high := by
  unfold Pending.ofLead
  simp only [Bool.and_eq_true, decide_eq_true_eq, beq_iff_eq]
  split_ifs
  · omega
  · omega
  · omega
  · omega
  · exact ⟨_, _, _, rfl, by omega, by omega, by omega⟩
  · exact ⟨_, _, _, rfl, by omega, by omega, by omega⟩
  · exact ⟨_, _, _, rfl, by omega, by omega, by omega⟩
  · omega

theorem continuation (n : Nat) :
    0x80 ≤ (UInt8.ofNat (0x80 + n % 64)).toNat ∧ (UInt8.ofNat (0x80 + n % 64)).toNat ≤ 0xBF ∧
      (UInt8.ofNat (0x80 + n % 64)).toNat % 64 = n % 64 := by
  rw [ModifiedUtf8.toNat_ofNat_of_lt (by omega)]
  omega

theorem codePoint_eq {n : Nat} {c : CodePoint} (h : n = c.val) : codePoint n = c := by
  subst h
  exact dif_pos c.isLt

theorem decodeFrom_encodeCodePoint {c : CodePoint} (h : c.isSurrogate = false) (done : Text)
    (bytes : List UInt8) :
    decodeFrom done none ((encodeCodePoint c).getD [] ++ bytes) =
      decodeFrom (c :: done) none bytes := by
  have hc := c.isLt
  have hsurrogate : ¬ (0xD800 ≤ c.val ∧ c.val < 0xE000) := by
    rw [← isSurrogate_iff, h]
    exact Bool.false_ne_true
  unfold encodeCodePoint
  rw [h]
  simp only [Bool.false_eq_true, if_false]
  -- The cases are those of the encoding: one to four bytes.
  split_ifs with hone htwo hthree
  · have hb : (UInt8.ofNat c.val).toNat = c.val := ModifiedUtf8.toNat_ofNat_of_lt (by omega)
    rw [Option.getD_some, List.singleton_append, decodeFrom_ascii (by omega), codePoint_eq hb]
  · have hlead : (UInt8.ofNat (0xC0 + c.val / 64)).toNat = 0xC0 + c.val / 64 :=
      ModifiedUtf8.toNat_ofNat_of_lt (by omega)
    have hp := ofLead_two (Nat.le_of_not_lt hone) htwo
    rw [← hlead] at hp
    obtain ⟨hlow, hhigh, hbits⟩ := continuation c.val
    rw [Option.getD_some, List.cons_append, List.singleton_append, decodeFrom_lead (by omega) hp,
      decodeFrom_last hlow hhigh (Nat.le_refl 1), codePoint_eq (c := c) (by simp only; omega)]
  · have hlead : (UInt8.ofNat (0xE0 + c.val / 4096)).toNat = 0xE0 + c.val / 4096 :=
      ModifiedUtf8.toNat_ofNat_of_lt (by omega)
    obtain ⟨bits, low, high, hp, hbits, hlow, hhigh⟩ :=
      ofLead_three (Nat.le_of_not_lt htwo) hthree hsurrogate
    obtain ⟨-, -, hbits₁⟩ := continuation (c.val / 64)
    obtain ⟨hlow₂, hhigh₂, hbits₂⟩ := continuation c.val
    have hsecond := ModifiedUtf8.toNat_ofNat_of_lt (n := 0x80 + c.val / 64 % 64) (by omega)
    rw [← hlead] at hp
    rw [← hsecond] at hlow hhigh
    rw [Option.getD_some, List.cons_append, List.cons_append, List.singleton_append,
      decodeFrom_lead (by omega) hp, decodeFrom_more hlow hhigh (by simp),
      decodeFrom_last hlow₂ hhigh₂ (Nat.le_refl 1), codePoint_eq (c := c) (by simp only; omega)]
  · have hlead : (UInt8.ofNat (0xF0 + c.val / 262144)).toNat = 0xF0 + c.val / 262144 :=
      ModifiedUtf8.toNat_ofNat_of_lt (by omega)
    obtain ⟨bits, low, high, hp, hbits, hlow, hhigh⟩ := ofLead_four (Nat.le_of_not_lt hthree) hc
    obtain ⟨-, -, hbits₁⟩ := continuation (c.val / 4096)
    obtain ⟨hlow₂, hhigh₂, hbits₂⟩ := continuation (c.val / 64)
    obtain ⟨hlow₃, hhigh₃, hbits₃⟩ := continuation c.val
    have hsecond := ModifiedUtf8.toNat_ofNat_of_lt (n := 0x80 + c.val / 4096 % 64) (by omega)
    rw [← hlead] at hp
    rw [← hsecond] at hlow hhigh
    rw [Option.getD_some, List.cons_append, List.cons_append, List.cons_append,
      List.singleton_append, decodeFrom_lead (by omega) hp, decodeFrom_more hlow hhigh (by simp),
      decodeFrom_more hlow₂ hhigh₂ (by simp), decodeFrom_last hlow₃ hhigh₃ (Nat.le_refl 1),
      codePoint_eq (c := c) (by simp only; omega)]

theorem decodeFrom_flatMap {t : Text} (h : t.hasSurrogate = false) (done : Text) :
    decodeFrom done none (t.flatMap fun c => (encodeCodePoint c).getD []) =
      (done.reverse ++ t, .complete) := by
  induction t generalizing done with
  | nil => simp [decodeFrom]
  | cons c t ih =>
    obtain ⟨hc, ht⟩ := Bool.or_eq_false_iff.1 (List.any_cons.symm.trans h)
    rw [List.flatMap_cons, decodeFrom_encodeCodePoint hc, ih ht, List.reverse_cons,
      List.append_assoc, List.singleton_append]

theorem encode_of_hasSurrogate {t : Text} (h : t.hasSurrogate = false) :
    encode t = some (t.flatMap fun c => (encodeCodePoint c).getD []) := by
  rw [encode, h]
  rfl

theorem decodeUpToFault_encode {t : Text} (h : t.hasSurrogate = false) :
    ∃ bytes, encode t = some bytes ∧ decodeUpToFault bytes = (t, .complete) :=
  ⟨_, encode_of_hasSurrogate h, decodeFrom_flatMap h []⟩

theorem hasSurrogate_of_encode {t : Text} {bytes : List UInt8} (h : encode t = some bytes) :
    t.hasSurrogate = false := by
  rw [encode] at h
  split at h
  · cases h
  · rename_i hsurrogate
    exact Bool.eq_false_iff.2 hsurrogate

theorem decodeUpToFault_of_encode {t : Text} {bytes : List UInt8} (h : encode t = some bytes) :
    decodeUpToFault bytes = (t, .complete) := by
  obtain ⟨found, hfound, hdecode⟩ := decodeUpToFault_encode (hasSurrogate_of_encode h)
  cases h.symm.trans hfound
  exact hdecode

theorem encode_inj {t u : Text} {bytes : List UInt8} (ht : encode t = some bytes)
    (hu : encode u = some bytes) : t = u := by
  have hsame := (decodeUpToFault_of_encode ht).symm.trans (decodeUpToFault_of_encode hu)
  exact (Prod.mk.inj hsame).1

end MaxEnt.Utf8
