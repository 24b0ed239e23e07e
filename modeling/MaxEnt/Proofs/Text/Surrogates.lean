import MaxEnt.Proofs.Text.ModifiedUtf8

namespace MaxEnt.ModifiedUtf8

/-- The second text is the first with every high surrogate that a low one follows replaced, together
with it, by the code point for which they stand. -/
inductive Joins : Text → Text → Prop
  | nil : Joins [] []
  | pair {high low c : CodePoint} {t u : Text} (hhigh : high.isHighSurrogate = true)
      (hlow : low.isLowSurrogate = true)
      (hc : c.val = 0x10000 + (high.val - 0xD800) * 0x400 + (low.val - 0xDC00)) (h : Joins t u) :
      Joins (high :: low :: t) (c :: u)
  | single {c : CodePoint} {t u : Text}
      (hc : ∀ low ∈ t.head?, ¬ (c.isHighSurrogate = true ∧ low.isLowSurrogate = true))
      (h : Joins t u) : Joins (c :: t) (c :: u)

theorem head?_of_head?_joinSurrogates {t : Text} {low : CodePoint}
    (h : low ∈ (Text.joinSurrogates t).head?) (hlow : low.isLowSurrogate = true) :
    low ∈ t.head? := by
  cases t with
  | nil => exact h
  | cons c t =>
    rw [joinSurrogates_cons] at h
    cases hjoined : Text.joinSurrogates t with
    | nil =>
      rw [hjoined] at h
      exact h
    | cons d u =>
      rw [hjoined, Text.consJoined] at h
      split at h
      · rename_i hpair
        obtain ⟨hhigh, hd⟩ := Bool.and_eq_true _ _ ▸ hpair
        obtain rfl := Option.mem_some_iff.1 h
        have hval := val_ofPair hhigh hd
        rw [isLowSurrogate_iff] at hlow
        omega
      · exact h

theorem joinSurrogates_single {c : CodePoint} {t : Text}
    (h : ∀ low ∈ t.head?, ¬ (c.isHighSurrogate = true ∧ low.isLowSurrogate = true)) :
    Text.joinSurrogates (c :: t) = c :: Text.joinSurrogates t := by
  rw [joinSurrogates_cons]
  cases hjoined : Text.joinSurrogates t with
  | nil => rfl
  | cons d u =>
    rw [Text.consJoined, if_neg]
    intro hpair
    obtain ⟨hhigh, hd⟩ := Bool.and_eq_true _ _ ▸ hpair
    exact h d (head?_of_head?_joinSurrogates (by simp [hjoined]) hd) ⟨hhigh, hd⟩

theorem joins_joinSurrogates (t : Text) : Joins t (Text.joinSurrogates t) := by
  match t with
  | [] => exact .nil
  | [c] => exact .single (by simp) .nil
  | c :: d :: t =>
    by_cases hpair : c.isHighSurrogate = true ∧ d.isLowSurrogate = true
    · rw [joinSurrogates_pair hpair.1 hpair.2]
      exact .pair hpair.1 hpair.2 (val_ofPair hpair.1 hpair.2) (joins_joinSurrogates t)
    · have hsingle : ∀ low ∈ (d :: t).head?,
          ¬ (c.isHighSurrogate = true ∧ low.isLowSurrogate = true) := by
        intro low hlow
        rwa [Option.mem_some_iff.1 hlow] at hpair
      rw [joinSurrogates_single hsingle]
      exact .single hsingle (joins_joinSurrogates (d :: t))

theorem joins_iff {t u : Text} : Joins t u ↔ Text.joinSurrogates t = u := by
  constructor
  · intro h
    induction h with
    | nil => rfl
    | pair hhigh hlow hc h ih =>
      rw [joinSurrogates_pair hhigh hlow, ih, Fin.ext ((val_ofPair hhigh hlow).trans hc.symm)]
    | single hc h ih => rw [joinSurrogates_single hc, ih]
  · rintro rfl
    exact joins_joinSurrogates t

theorem units_ofPair {high low : CodePoint} (hhigh : high.isHighSurrogate = true)
    (hlow : low.isLowSurrogate = true) :
    (CodePoint.ofPair high low).units = high.units ++ low.units := by
  have hval := val_ofPair hhigh hlow
  rw [isHighSurrogate_iff] at hhigh
  rw [isLowSurrogate_iff] at hlow
  rw [units_of_lt (c := high) (by omega), units_of_lt (c := low) (by omega), CodePoint.units,
    dif_neg (by omega)]
  simp only [List.singleton_append, List.cons.injEq, and_true]
  constructor
  · apply Fin.ext
    simp only [hval]
    omega
  · apply Fin.ext
    simp only [hval]
    omega

theorem units_consJoined (c : CodePoint) (t : Text) :
    (Text.consJoined c t).units = c.units ++ t.units := by
  cases t with
  | nil => rfl
  | cons d t =>
    rw [Text.consJoined]
    split
    · rename_i hpair
      obtain ⟨hhigh, hlow⟩ := Bool.and_eq_true _ _ ▸ hpair
      simp only [Text.units, List.flatMap_cons, units_ofPair hhigh hlow, List.append_assoc]
    · rfl

theorem units_joinSurrogates (t : Text) : (Text.joinSurrogates t).units = t.units := by
  induction t with
  | nil => rfl
  | cons c t ih =>
    rw [joinSurrogates_cons, units_consJoined, ih]
    rfl

theorem units_ofUnits (us : List CodeUnit) : (Text.ofUnits us).units = us := by
  rw [Text.ofUnits, units_joinSurrogates]
  induction us with
  | nil => rfl
  | cons u us ih =>
    have hu : (CodePoint.ofUnit u).units = [u] := units_of_lt u.isLt
    rw [List.map_cons, Text.units, List.flatMap_cons, hu, ← Text.units, ih, List.singleton_append]

theorem encode_joinSurrogates (t : Text) : encode (Text.joinSurrogates t) = encode t := by
  rw [encode, encode, units_joinSurrogates]

theorem encode_eq_encode_iff (t u : Text) :
    encode t = encode u ↔ Text.joinSurrogates t = Text.joinSurrogates u := by
  constructor
  · intro h
    have hdecode := congrArg decode h
    rw [decode_encode, decode_encode] at hdecode
    exact Except.ok.inj hdecode
  · intro h
    rw [← encode_joinSurrogates t, h, encode_joinSurrogates]

theorem joinSurrogates_eq_self_iff (t : Text) : Text.joinSurrogates t = t ↔ Unpaired t := by
  constructor
  · intro h
    exact h ▸ unpaired_joinSurrogates t
  · exact joinSurrogates_of_unpaired

/-- Each code unit is written in one to three bytes, none of them zero. What is read is the text
with its pairs of surrogates joined, so it tells texts apart just where joining does. -/
theorem decode_encode_joins (t : Text) :
    (∃ ss : List Sequence, ss.flatMap Sequence.bytes = encode t ∧ ss.map Sequence.unit = t.units ∧
      ∀ s ∈ ss, s.Canonical ∧ 1 ≤ s.bytes.length ∧ s.bytes.length ≤ 3) ∧
      (0 : UInt8) ∉ encode t ∧
      (∃ u, decode (encode t) = .ok u) ∧ (∀ u, decode (encode t) = .ok u ↔ Joins t u) ∧
      (decode (encode t) = .ok t ↔ Unpaired t) ∧
      ∀ u, encode t = encode u ↔ ∃ v, Joins t v ∧ Joins u v := by
  have hcanonical : ∀ s ∈ t.units.map Sequence.shortest, s.Canonical := by
    intro s hs
    obtain ⟨u, -, rfl⟩ := List.mem_map.1 hs
    exact Sequence.canonical_shortest u
  have hread : ∀ u, decode (encode t) = .ok u ↔ Text.joinSurrogates t = u := by
    intro u
    rw [decode_encode, Except.ok.injEq]
  refine ⟨⟨t.units.map Sequence.shortest, (encode_eq t).symm, ?_, ?_⟩, ?_, ⟨_, decode_encode t⟩, ?_,
    ?_, ?_⟩
  · simp [Function.comp_def, Sequence.unit_shortest]
  · exact fun s hs => ⟨hcanonical s hs, s.length_bytes⟩
  · rw [encode_eq, List.mem_flatMap]
    rintro ⟨s, hs, hzero⟩
    exact Sequence.zero_not_mem_bytes (hcanonical s hs) hzero
  · exact fun u => (hread u).trans joins_iff.symm
  · exact (hread t).trans (joinSurrogates_eq_self_iff t)
  · intro u
    rw [encode_eq_encode_iff]
    constructor
    · intro h
      exact ⟨_, joins_joinSurrogates t, joins_iff.2 h.symm⟩
    · rintro ⟨v, ht, hu⟩
      rw [joins_iff.1 ht, joins_iff.1 hu]

/-- The two surrogates of an emoji come back as the emoji, its last alone as it is. -/
example : decode (encode [0xD83D, 0xDE00]) = .ok [0x1F600] ∧
    decode (encode [0xDE00, 0]) = .ok [0xDE00, 0] := by decide

end MaxEnt.ModifiedUtf8
