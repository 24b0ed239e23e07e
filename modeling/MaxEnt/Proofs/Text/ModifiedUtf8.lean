import Mathlib.Data.List.Chain
import MaxEnt.Proofs.Text.Ascii
import MaxEnt.Proofs.Text.Sequence

namespace MaxEnt.ModifiedUtf8

/-- No high surrogate has a low one behind it. -/
def Unpaired (t : Text) : Prop :=
  t.IsChain fun c d => ¬ (c.isHighSurrogate = true ∧ d.isLowSurrogate = true)

instance (t : Text) : Decidable (Unpaired t) :=
  inferInstanceAs (Decidable (t.IsChain _))

theorem isHighSurrogate_iff (c : CodePoint) :
    c.isHighSurrogate = true ↔ 0xD800 ≤ c.val ∧ c.val < 0xDC00 := by
  simp [CodePoint.isHighSurrogate]

theorem isLowSurrogate_iff (c : CodePoint) :
    c.isLowSurrogate = true ↔ 0xDC00 ≤ c.val ∧ c.val < 0xE000 := by
  simp [CodePoint.isLowSurrogate]

theorem unpaired_of_forall {t : Text} (h : ∀ c ∈ t, c.isHighSurrogate = false) : Unpaired t := by
  refine List.Pairwise.isChain (List.pairwise_of_forall_mem_list fun c hc d _ hcd => ?_)
  rw [h c hc] at hcd
  exact Bool.noConfusion hcd.1

theorem consJoined_of_not_high {c : CodePoint} (h : c.isHighSurrogate = false) (t : Text) :
    Text.consJoined c t = c :: t := by
  cases t with
  | nil => rfl
  | cons d t => simp [Text.consJoined, h]

theorem joinSurrogates_cons (c : CodePoint) (t : Text) :
    Text.joinSurrogates (c :: t) = Text.consJoined c (Text.joinSurrogates t) := rfl

theorem joinSurrogates_of_unpaired {t : Text} (h : Unpaired t) : Text.joinSurrogates t = t := by
  induction t with
  | nil => rfl
  | cons c t ih =>
    rw [joinSurrogates_cons]
    cases t with
    | nil => rfl
    | cons d t =>
      obtain ⟨hcd, ht⟩ := List.isChain_cons_cons.1 h
      rw [ih ht]
      simp [Text.consJoined, hcd]

theorem val_ofPair {high low : CodePoint} (hhigh : high.isHighSurrogate = true)
    (hlow : low.isLowSurrogate = true) : (CodePoint.ofPair high low).val =
      0x10000 + (high.val - 0xD800) * 0x400 + (low.val - 0xDC00) := by
  rw [isHighSurrogate_iff] at hhigh
  rw [isLowSurrogate_iff] at hlow
  simp only [CodePoint.ofPair, Fin.ofNat]
  omega

theorem not_high_of_low {c : CodePoint} (h : c.isLowSurrogate = true) : c.isHighSurrogate = false := by
  rw [isLowSurrogate_iff] at h
  rw [Bool.eq_false_iff, ne_eq, isHighSurrogate_iff]
  omega

theorem joinSurrogates_pair {high low : CodePoint} (hhigh : high.isHighSurrogate = true)
    (hlow : low.isLowSurrogate = true) (t : Text) :
    Text.joinSurrogates (high :: low :: t) = CodePoint.ofPair high low :: Text.joinSurrogates t := by
  rw [joinSurrogates_cons, joinSurrogates_cons, consJoined_of_not_high (not_high_of_low hlow)]
  simp [Text.consJoined, hhigh, hlow]

/-- A joined pair is no surrogate, so no new pair comes about. -/
theorem Unpaired.consJoined {t : Text} (h : Unpaired t) (c : CodePoint) :
    Unpaired (Text.consJoined c t) := by
  cases t with
  | nil => exact List.isChain_singleton c
  | cons d t =>
    rw [Text.consJoined]
    split
    · rename_i hcd
      obtain ⟨hhigh, hlow⟩ := Bool.and_eq_true _ _ ▸ hcd
      have hpair : ¬ (CodePoint.ofPair c d).isHighSurrogate = true := by
        have hval := val_ofPair hhigh hlow
        rw [isHighSurrogate_iff]
        omega
      cases t with
      | nil => exact List.isChain_singleton _
      | cons e t => exact List.isChain_cons_cons.2 ⟨fun hpe => hpair hpe.1, (List.isChain_cons_cons.1 h).2⟩
    · rename_i hcd
      exact List.isChain_cons_cons.2 ⟨fun hpair => hcd (Bool.and_eq_true _ _ ▸ hpair), h⟩

theorem unpaired_joinSurrogates (t : Text) : Unpaired (Text.joinSurrogates t) := by
  induction t with
  | nil => exact List.isChain_nil
  | cons c t ih =>
    rw [joinSurrogates_cons]
    exact ih.consJoined c

theorem unpaired_of_decode {bytes : List UInt8} {t : Text} (h : decode bytes = .ok t) :
    Unpaired t := by
  rw [decode] at h
  cases hunits : decodeUnits 0 [] bytes with
  | error place =>
    rw [hunits] at h
    cases h
  | ok us =>
    rw [hunits] at h
    cases h
    exact unpaired_joinSurrogates _

theorem ofPair_units {c high low : CodePoint} (h : ¬ c.val < 0x10000)
    (hhigh : high.val = 0xD800 + (c.val - 0x10000) / 1024)
    (hlow : low.val = 0xDC00 + (c.val - 0x10000) % 1024) : CodePoint.ofPair high low = c := by
  apply Fin.ext
  have hc := c.isLt
  simp only [CodePoint.ofPair, Fin.ofNat, hhigh, hlow]
  omega

theorem joinSurrogates_units_append (c : CodePoint) (t : Text) :
    Text.joinSurrogates (c.units.map CodePoint.ofUnit ++ t) =
      Text.consJoined c (Text.joinSurrogates t) := by
  unfold CodePoint.units
  split
  · rename_i h
    rw [List.map_singleton, List.singleton_append, joinSurrogates_cons]
    congr 1
  · rename_i h
    have hc := c.isLt
    have hnot : c.isHighSurrogate = false := by
      rw [Bool.eq_false_iff, ne_eq, isHighSurrogate_iff]
      omega
    have hhigh : (CodePoint.ofUnit ⟨0xD800 + (c.val - 0x10000) / 1024, by omega⟩).isHighSurrogate =
        true := by
      simp only [isHighSurrogate_iff, CodePoint.ofUnit]
      omega
    have hlow : (CodePoint.ofUnit ⟨0xDC00 + (c.val - 0x10000) % 1024, by omega⟩).isLowSurrogate =
        true := by
      simp only [isLowSurrogate_iff, CodePoint.ofUnit]
      omega
    simp only [List.map_cons, List.map_nil, List.cons_append, List.nil_append]
    rw [joinSurrogates_pair hhigh hlow, consJoined_of_not_high hnot, ofPair_units h]
    · rfl
    · rfl

theorem ofUnits_units (t : Text) : Text.ofUnits t.units = Text.joinSurrogates t := by
  induction t with
  | nil => rfl
  | cons c t ih =>
    have hu : Text.units (c :: t) = c.units ++ Text.units t := rfl
    rw [Text.ofUnits, hu, List.map_append, joinSurrogates_units_append, joinSurrogates_cons, ← ih,
      Text.ofUnits]

theorem decode_encode (t : Text) : decode (encode t) = .ok (Text.joinSurrogates t) := by
  have hunits : (t.units.map Sequence.shortest).map Sequence.unit = t.units := by
    simp [Function.comp_def, Sequence.unit_shortest]
  rw [encode_eq, decode_flatMap_bytes, hunits, ofUnits_units]

theorem units_of_lt {c : CodePoint} (h : c.val < 0x10000) : c.units = [⟨c.val, h⟩] := dif_pos h

theorem length_encode_of_ascii {t : Text} (h : t.Ascii) : (encode t).length = t.length := by
  induction t with
  | nil => rfl
  | cons c t ih =>
    obtain ⟨hc, ht⟩ := List.forall_mem_cons.1 h
    have hunits : Text.units (c :: t) = ⟨c.val, by omega⟩ :: Text.units t := by
      rw [Text.units, List.flatMap_cons, units_of_lt (by omega)]
      rfl
    have hunit : encodeUnit ⟨c.val, by omega⟩ = [.ofNat c.val] := by
      have hbyte : 0 < c.val ∧ c.val < 0x80 := by omega
      simp [encodeUnit, hbyte]
    rw [encode, hunits, List.flatMap_cons, hunit, List.length_append, ← encode, ih ht]
    exact Nat.add_comm 1 t.length

end MaxEnt.ModifiedUtf8
