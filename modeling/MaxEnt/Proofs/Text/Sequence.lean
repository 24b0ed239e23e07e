import MaxEnt.Text.ModifiedUtf8

namespace MaxEnt.ModifiedUtf8

theorem toNat_ofNat_of_lt {n : Nat} (h : n < 256) : (UInt8.ofNat n).toNat = n := by
  simp [Nat.mod_eq_of_lt h]

theorem unit_eq {n : Nat} {u : CodeUnit} (h : n = u.val) : unit n = u := by
  subst h
  exact Fin.ext (Nat.mod_eq_of_lt u.isLt)

/-- The bytes of one code unit. The first of them tells how many follow it, and these may be any. -/
inductive Sequence where
  | one (a : UInt8) (h : a.toNat ≤ 0x7F)
  | two (a b : UInt8) (h : 0xC0 ≤ a.toNat ∧ a.toNat ≤ 0xDF)
  | three (a b c : UInt8) (h : 0xE0 ≤ a.toNat ∧ a.toNat ≤ 0xEF)

def Continues (b : UInt8) : Prop := 0x80 ≤ b.toNat ∧ b.toNat ≤ 0xBF

instance (b : UInt8) : Decidable (Continues b) := inferInstanceAs (Decidable (_ ∧ _))

namespace Sequence

def bytes : Sequence → List UInt8
  | one a _ => [a]
  | two a b _ => [a, b]
  | three a b c _ => [a, b, c]

def value : Sequence → Nat
  | one a _ => a.toNat
  | two a b _ => a.toNat % 32 * 64 + b.toNat % 64
  | three a b c _ => a.toNat % 16 * 4096 + b.toNat % 64 * 64 + c.toNat % 64

theorem value_lt (s : Sequence) : s.value < 0x10000 := by
  cases s with
  | one a h | two a b h | three a b c h =>
    simp only [value]
    omega

def unit (s : Sequence) : CodeUnit := ⟨s.value, s.value_lt⟩

/-- Whether the bytes are those that are written for the code unit: two for zero, and for any other
as few as hold it. -/
def Canonical (s : Sequence) : Prop :=
  match s with
  | one a _ => a ≠ 0
  | two _ b _ => Continues b ∧ (s.value = 0 ∨ 0x80 ≤ s.value ∧ s.value ≤ 0x7FF)
  | three _ b c _ => Continues b ∧ Continues c ∧ 0x800 ≤ s.value

instance : DecidablePred Canonical
  | one a _ => inferInstanceAs (Decidable (a ≠ 0))
  | two a b h => inferInstanceAs (Decidable (Continues b ∧
      ((two a b h).value = 0 ∨ 0x80 ≤ (two a b h).value ∧ (two a b h).value ≤ 0x7FF)))
  | three a b c h =>
    inferInstanceAs (Decidable (Continues b ∧ Continues c ∧ 0x800 ≤ (three a b c h).value))

def shortest (u : CodeUnit) : Sequence :=
  if h : 0 < u.val ∧ u.val < 0x80 then
    one (.ofNat u.val) (by rw [toNat_ofNat_of_lt] <;> omega)
  else if h : u.val < 0x800 then
    two (.ofNat (0xC0 + u.val / 64)) (.ofNat (0x80 + u.val % 64))
      (by rw [toNat_ofNat_of_lt] <;> omega)
  else
    three (.ofNat (0xE0 + u.val / 4096)) (.ofNat (0x80 + u.val / 64 % 64))
      (.ofNat (0x80 + u.val % 64)) (by have := u.isLt; rw [toNat_ofNat_of_lt] <;> omega)

theorem bytes_shortest (u : CodeUnit) : (shortest u).bytes = encodeUnit u := by
  unfold shortest encodeUnit
  simp only [Bool.and_eq_true, decide_eq_true_eq]
  split
  · rfl
  · split <;> rfl

theorem unit_shortest (u : CodeUnit) : (shortest u).unit = u := by
  have hu := u.isLt
  have hlast : (UInt8.ofNat (0x80 + u.val % 64)).toNat = 0x80 + u.val % 64 :=
    toNat_ofNat_of_lt (by omega)
  apply Fin.ext
  -- The cases are those of the encoding: one byte, two bytes, three bytes.
  unfold shortest
  split
  · exact toNat_ofNat_of_lt (by omega)
  · split
    · have hlead : (UInt8.ofNat (0xC0 + u.val / 64)).toNat = 0xC0 + u.val / 64 :=
        toNat_ofNat_of_lt (by omega)
      simp only [unit, value, hlead, hlast]
      omega
    · have hlead : (UInt8.ofNat (0xE0 + u.val / 4096)).toNat = 0xE0 + u.val / 4096 :=
        toNat_ofNat_of_lt (by omega)
      have hmiddle : (UInt8.ofNat (0x80 + u.val / 64 % 64)).toNat = 0x80 + u.val / 64 % 64 :=
        toNat_ofNat_of_lt (by omega)
      simp only [unit, value, hlead, hmiddle, hlast]
      omega

theorem continues_ofNat (n : Nat) : Continues (.ofNat (0x80 + n % 64)) := by
  rw [Continues, toNat_ofNat_of_lt (by omega)]
  omega

theorem canonical_shortest (u : CodeUnit) : (shortest u).Canonical := by
  have hvalue : (shortest u).value = u.val := congrArg Fin.val (unit_shortest u)
  unfold shortest at hvalue ⊢
  split at hvalue
  · rename_i h
    have ha : UInt8.ofNat u.val ≠ 0 := by
      intro ha
      have hn := congrArg UInt8.toNat ha
      rw [toNat_ofNat_of_lt (by omega), UInt8.toNat_zero] at hn
      omega
    rw [dif_pos h]
    exact ha
  · rename_i h
    rw [dif_neg h]
    split at hvalue
    · rename_i h'
      rw [dif_pos h']
      refine ⟨continues_ofNat _, ?_⟩
      rw [hvalue]
      omega
    · rename_i h'
      rw [dif_neg h']
      refine ⟨continues_ofNat _, continues_ofNat _, ?_⟩
      rw [hvalue]
      omega

theorem ofNat_eq {b : UInt8} {n : Nat} (h : n = b.toNat) : UInt8.ofNat n = b := by
  rw [h, UInt8.ofNat_toNat]

theorem encodeUnit_unit {s : Sequence} (h : s.Canonical) : encodeUnit s.unit = s.bytes := by
  have hval : s.unit.val = s.value := rfl
  unfold encodeUnit
  simp only [hval, Bool.and_eq_true, decide_eq_true_eq]
  cases s with
  | one a ha =>
    have hpos : a.toNat ≠ 0 := fun hzero => h (UInt8.toNat_inj.1 hzero)
    have hn : 0 < (one a ha).value ∧ (one a ha).value < 0x80 := by
      simp only [value]
      omega
    rw [if_pos hn]
    exact congrArg (fun b => [b]) (ofNat_eq rfl)
  | two a b ha =>
    obtain ⟨hb, hn⟩ := h
    rw [Continues] at hb
    have hlead : UInt8.ofNat (0xC0 + (two a b ha).value / 64) = a := ofNat_eq (by
      simp only [value]
      omega)
    have hlast : UInt8.ofNat (0x80 + (two a b ha).value % 64) = b := ofNat_eq (by
      simp only [value]
      omega)
    rw [if_neg (by omega), if_pos (by omega), hlead, hlast]
    rfl
  | three a b c ha =>
    obtain ⟨hb, hc, hn⟩ := h
    rw [Continues] at hb hc
    have hlead : UInt8.ofNat (0xE0 + (three a b c ha).value / 4096) = a := ofNat_eq (by
      simp only [value]
      omega)
    have hmiddle : UInt8.ofNat (0x80 + (three a b c ha).value / 64 % 64) = b := ofNat_eq (by
      simp only [value]
      omega)
    have hlast : UInt8.ofNat (0x80 + (three a b c ha).value % 64) = c := ofNat_eq (by
      simp only [value]
      omega)
    rw [if_neg (by omega), if_neg (by omega), hlead, hmiddle, hlast]
    rfl

theorem length_bytes (s : Sequence) : 1 ≤ s.bytes.length ∧ s.bytes.length ≤ 3 := by
  cases s <;> simp [bytes]

theorem zero_not_mem_bytes {s : Sequence} (h : s.Canonical) : (0 : UInt8) ∉ s.bytes := by
  cases s with
  | one a ha => simpa [bytes] using h.symm
  | two a b ha =>
    obtain ⟨hb, -⟩ := h
    rw [Continues] at hb
    simp only [bytes, List.mem_cons, List.not_mem_nil, or_false, ← UInt8.toNat_inj,
      UInt8.toNat_zero]
    omega
  | three a b c ha =>
    obtain ⟨hb, hc, -⟩ := h
    rw [Continues] at hb hc
    simp only [bytes, List.mem_cons, List.not_mem_nil, or_false, ← UInt8.toNat_inj,
      UInt8.toNat_zero]
    omega

/-- The first byte tells where a sequence ends, so bytes are split into sequences in one way. -/
theorem bytes_append_inj {s s' : Sequence} {x y : List UInt8} (h : s.bytes ++ x = s'.bytes ++ y) :
    s = s' ∧ x = y := by
  cases s with
  | one a ha =>
    cases s' with
    | one a' ha' => simpa [bytes] using h
    | two a' b' ha' | three a' b' c' ha' =>
      simp only [bytes, List.cons_append, List.cons.injEq] at h
      have := h.1 ▸ ha
      omega
  | two a b ha =>
    cases s' with
    | two a' b' ha' => simpa [bytes, and_assoc] using h
    | one a' ha' | three a' b' c' ha' =>
      simp only [bytes, List.cons_append, List.cons.injEq] at h
      have := h.1 ▸ ha
      omega
  | three a b c ha =>
    cases s' with
    | three a' b' c' ha' => simpa [bytes, and_assoc] using h
    | one a' ha' | two a' b' ha' =>
      simp only [bytes, List.cons_append, List.cons.injEq] at h
      have := h.1 ▸ ha
      omega

end Sequence

theorem decodeUnits_bytes (s : Sequence) (i : Nat) (done : List CodeUnit) (bytes : List UInt8) :
    decodeUnits i done (s.bytes ++ bytes) =
      decodeUnits (i + s.bytes.length) (s.unit :: done) bytes := by
  have hunit : unit s.value = s.unit := unit_eq rfl
  rw [← hunit]
  cases s with
  | one a h =>
    have ha : a.toNat < 0x80 := by omega
    rw [Sequence.bytes, List.singleton_append, decodeUnits.eq_def]
    simp only [if_pos ha]
    rfl
  | two a b h =>
    have ha : ¬ a.toNat < 0x80 := by omega
    have ha' : a.toNat / 32 = 6 := by omega
    rw [Sequence.bytes, List.cons_append, List.singleton_append, decodeUnits.eq_def]
    simp only [if_neg ha, if_pos ha']
    rfl
  | three a b c h =>
    have ha : ¬ a.toNat < 0x80 := by omega
    have ha' : ¬ a.toNat / 32 = 6 := by omega
    have ha'' : a.toNat / 16 = 14 := by omega
    rw [Sequence.bytes, List.cons_append, List.cons_append, List.singleton_append,
      decodeUnits.eq_def]
    simp only [if_neg ha, if_neg ha', if_pos ha'']
    rfl

theorem decodeUnits_flatMap_bytes (ss : List Sequence) (i : Nat) (done : List CodeUnit)
    (rest : List UInt8) : decodeUnits i done (ss.flatMap Sequence.bytes ++ rest) =
      decodeUnits (i + (ss.flatMap Sequence.bytes).length)
        ((ss.map Sequence.unit).reverse ++ done) rest := by
  induction ss generalizing i done with
  | nil => rfl
  | cons s ss ih =>
    rw [List.flatMap_cons, List.append_assoc, decodeUnits_bytes, ih, List.length_append,
      Nat.add_assoc, List.map_cons, List.reverse_cons, List.append_assoc, List.singleton_append]

theorem decode_flatMap_bytes (ss : List Sequence) :
    decode (ss.flatMap Sequence.bytes) = .ok (Text.ofUnits (ss.map Sequence.unit)) := by
  have hread := decodeUnits_flatMap_bytes ss 0 [] []
  rw [List.append_nil, List.append_nil] at hread
  rw [decode, hread, decodeUnits, List.reverse_reverse]
  rfl

theorem encode_eq (t : Text) :
    encode t = (t.units.map Sequence.shortest).flatMap Sequence.bytes := by
  rw [encode, List.flatMap_map]
  simp only [Sequence.bytes_shortest]

end MaxEnt.ModifiedUtf8
