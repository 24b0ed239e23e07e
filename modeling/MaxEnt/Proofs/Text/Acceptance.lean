import MaxEnt.Codec.Error
import MaxEnt.Proofs.Text.Surrogates

namespace MaxEnt.ModifiedUtf8

/-- Up to this place the bytes are sequences, and none begins there. -/
def StopsAt (bytes : List UInt8) (place : Nat) : Prop :=
  ∃ (ss : List Sequence) (rest : List UInt8), ss.flatMap Sequence.bytes ++ rest = bytes ∧
    rest ≠ [] ∧ (∀ s : Sequence, ¬ s.bytes <+: rest) ∧ (ss.flatMap Sequence.bytes).length = place

theorem exists_sequences (bytes : List UInt8) : ∃ (ss : List Sequence) (rest : List UInt8),
    ss.flatMap Sequence.bytes ++ rest = bytes ∧ ∀ s : Sequence, ¬ s.bytes <+: rest := by
  by_cases h : ∃ s : Sequence, s.bytes <+: bytes
  · obtain ⟨s, rest, rfl⟩ := h
    have hshorter : rest.length < (s.bytes ++ rest).length := by
      have hs := s.length_bytes
      rw [List.length_append]
      omega
    obtain ⟨ss, rest', rfl, hrest⟩ := exists_sequences rest
    exact ⟨s :: ss, rest', by rw [List.flatMap_cons, List.append_assoc], hrest⟩
  · exact ⟨[], bytes, rfl, fun s hs => h ⟨s, hs⟩⟩
termination_by bytes.length

theorem decodeUnits_of_stuck {bytes : List UInt8} (hne : bytes ≠ [])
    (h : ∀ s : Sequence, ¬ s.bytes <+: bytes) (i : Nat) (done : List CodeUnit) :
    decodeUnits i done bytes = .error i := by
  cases bytes with
  | nil => exact absurd rfl hne
  | cons a bytes =>
    have hone : ¬ a.toNat < 0x80 := fun ha =>
      h (.one a (by omega)) (List.cons_prefix_cons.2 ⟨rfl, List.nil_prefix⟩)
    rw [decodeUnits.eq_def]
    simp only [if_neg hone]
    by_cases htwo : a.toNat / 32 = 6
    · rw [if_pos htwo]
      cases bytes with
      | nil => rfl
      | cons b bytes =>
        refine absurd ?_ (h (.two a b (by omega)))
        simp [Sequence.bytes]
    · rw [if_neg htwo]
      by_cases hthree : a.toNat / 16 = 14
      · rw [if_pos hthree]
        cases bytes with
        | nil => rfl
        | cons b bytes =>
          cases bytes with
          | nil => rfl
          | cons c bytes =>
            refine absurd ?_ (h (.three a b c (by omega)))
            simp [Sequence.bytes]
      · rw [if_neg hthree]

theorem decode_of_stopsAt {bytes : List UInt8} {place : Nat} (h : StopsAt bytes place) :
    decode bytes = .error place := by
  obtain ⟨ss, rest, rfl, hne, hrest, rfl⟩ := h
  rw [decode, decodeUnits_flatMap_bytes, decodeUnits_of_stuck hne hrest, Nat.zero_add]
  rfl

theorem sequences_or_stopsAt (bytes : List UInt8) :
    (∃ ss : List Sequence, ss.flatMap Sequence.bytes = bytes) ∨ ∃ place, StopsAt bytes place := by
  obtain ⟨ss, rest, hbytes, hrest⟩ := exists_sequences bytes
  by_cases hne : rest = []
  · rw [hne, List.append_nil] at hbytes
    exact .inl ⟨ss, hbytes⟩
  · exact .inr ⟨_, ss, rest, hbytes, hne, hrest, rfl⟩

theorem exists_decode_eq_ok_iff (bytes : List UInt8) :
    (∃ t, decode bytes = .ok t) ↔ ∃ ss : List Sequence, ss.flatMap Sequence.bytes = bytes := by
  constructor
  · rintro ⟨t, ht⟩
    rcases sequences_or_stopsAt bytes with h | ⟨place, h⟩
    · exact h
    · rw [decode_of_stopsAt h] at ht
      cases ht
  · rintro ⟨ss, rfl⟩
    exact ⟨_, decode_flatMap_bytes ss⟩

theorem decode_eq_error_iff (bytes : List UInt8) (place : Nat) :
    decode bytes = .error place ↔ StopsAt bytes place := by
  constructor
  · intro herror
    rcases sequences_or_stopsAt bytes with ⟨ss, rfl⟩ | ⟨place', h⟩
    · rw [decode_flatMap_bytes] at herror
      cases herror
    · rw [decode_of_stopsAt h] at herror
      cases herror
      exact h
  · exact decode_of_stopsAt

theorem flatMap_encodeUnit_eq_iff (ss : List Sequence) :
    (ss.map Sequence.unit).flatMap encodeUnit = ss.flatMap Sequence.bytes ↔
      ∀ s ∈ ss, s.Canonical := by
  induction ss with
  | nil => simp
  | cons s ss ih =>
    rw [List.map_cons, List.flatMap_cons, List.flatMap_cons, List.forall_mem_cons, ← ih]
    constructor
    · intro h
      rw [← Sequence.bytes_shortest] at h
      obtain ⟨hs, hss⟩ := Sequence.bytes_append_inj h
      exact ⟨hs ▸ Sequence.canonical_shortest _, hss⟩
    · rintro ⟨hs, hss⟩
      rw [Sequence.encodeUnit_unit hs, hss]

theorem encode_of_decode {ss : List Sequence} {t : Text}
    (h : decode (ss.flatMap Sequence.bytes) = .ok t) :
    encode t = (ss.map Sequence.unit).flatMap encodeUnit := by
  rw [decode_flatMap_bytes, Except.ok.injEq] at h
  rw [← h, encode, units_ofUnits]

/-- Bytes are read where they are sequences, canonical or not. What is read has no pair of
surrogates, is read again from its own bytes, and these are the bytes that were read only where every
sequence of them is canonical. -/
theorem decode_cases (bytes : List UInt8) :
    ((∃ t, decode bytes = .ok t) ↔ ∃ ss : List Sequence, ss.flatMap Sequence.bytes = bytes) ∧
      (∀ e : ReadError, (decode bytes).mapError .malformedString = .error e ↔
        ∃ place, StopsAt bytes place ∧ e = .malformedString place ∧
          e.message = "Malformed modified UTF-8 at byte " ++ Numeral.ofNat place) ∧
      ∀ t, decode bytes = .ok t → Unpaired t ∧ decode (encode t) = .ok t ∧
        ∀ ss : List Sequence, ss.flatMap Sequence.bytes = bytes →
          (encode t = bytes ↔ ∀ s ∈ ss, s.Canonical) := by
  refine ⟨exists_decode_eq_ok_iff bytes, ?_, ?_⟩
  · intro e
    constructor
    · intro he
      cases hread : decode bytes with
      | ok t =>
        rw [hread] at he
        cases he
      | error place =>
        rw [hread] at he
        cases he
        exact ⟨place, (decode_eq_error_iff bytes place).1 hread, rfl, rfl⟩
    · rintro ⟨place, hstops, rfl, -⟩
      rw [decode_of_stopsAt hstops]
      rfl
  · intro t ht
    have hunpaired := unpaired_of_decode ht
    refine ⟨hunpaired, ?_, ?_⟩
    · rw [decode_encode, joinSurrogates_of_unpaired hunpaired]
    · rintro ss rfl
      rw [encode_of_decode ht, flatMap_encodeUnit_eq_iff]

/-- A letter in two bytes is read, and written in one. -/
theorem decode_cases_overlong :
    decode [0x42, 0xC1, 0x81] = .ok "BA" ∧ Unpaired "BA" ∧ decode (encode "BA") = .ok "BA" ∧
      (encode "BA" = [0x42, 0xC1, 0x81] ↔ ∀ s ∈ [Sequence.one 0x42 (by decide),
        .two 0xC1 0x81 (by decide)], s.Canonical) ∧ encode "BA" = [0x42, 0x41] := by
  have hread : decode [0x42, 0xC1, 0x81] = .ok "BA" := by decide
  obtain ⟨-, -, hcases⟩ := decode_cases [0x42, 0xC1, 0x81]
  obtain ⟨hunpaired, hagain, hcanonical⟩ := hcases "BA" hread
  exact ⟨hread, hunpaired, hagain, hcanonical _ rfl, by decide⟩

/-- Of a last sequence two bytes are left. -/
example : decode [0x42, 0xE0, 0x80] = .error 1 := by decide

end MaxEnt.ModifiedUtf8
