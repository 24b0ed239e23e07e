import MaxEnt.Proofs.Numeral.Spelling

namespace MaxEnt

theorem Text.append_lt_append {t u : Text} (hlength : t.length = u.length) (h : t < u) (v w : Text) :
    t ++ v < u ++ w := by
  induction t generalizing u with
  | nil =>
    obtain rfl := List.length_eq_zero_iff.1 hlength.symm
    exact absurd h (List.not_lt_nil [])
  | cons c t ih =>
    obtain ⟨d, u, rfl⟩ := List.exists_cons_of_length_eq_add_one hlength.symm
    rw [List.cons_append, List.cons_append, List.cons_lt_cons_iff]
    rcases List.cons_lt_cons_iff.1 h with hcd | ⟨rfl, htu⟩
    · exact .inl hcd
    · exact .inr ⟨rfl, ih (Nat.succ.inj hlength) htu⟩

namespace Numeral

theorem ofDigits_cons (d : Nat) (ds : List Nat) :
    ofDigits (d :: ds) = d * 10 ^ ds.length + ofDigits ds := by
  have hfold : ∀ (n : Nat) (ds : List Nat),
      ds.foldl (fun n d => 10 * n + d) n = n * 10 ^ ds.length + ofDigits ds := by
    intro n ds
    induction ds generalizing n with
    | nil => simp [ofDigits]
    | cons e ds ih =>
      rw [ofDigits, List.foldl_cons, List.foldl_cons, ih, ih (10 * 0 + e), List.length_cons, pow_succ]
      ring
  rw [ofDigits, List.foldl_cons, hfold]
  ring

theorem ofDigits_lt {ds : List Nat} (h : ∀ d ∈ ds, d < 10) : ofDigits ds < 10 ^ ds.length := by
  induction ds with
  | nil => simp [ofDigits]
  | cons d ds ih =>
    have hd := h d (by simp)
    have hds := ih fun e he => h e (List.mem_cons_of_mem d he)
    rw [ofDigits_cons, List.length_cons, pow_succ]
    nlinarith

/-- As many digits are ordered as the numbers that they tell. -/
theorem digitText_lt {ds es : List Nat} (hlength : ds.length = es.length) (hds : ∀ d ∈ ds, d < 10)
    (hes : ∀ e ∈ es, e < 10) (h : ofDigits ds < ofDigits es) : digitText ds < digitText es := by
  induction ds generalizing es with
  | nil =>
    obtain rfl := List.length_eq_zero_iff.1 hlength.symm
    exact absurd h (Nat.lt_irrefl _)
  | cons d ds ih =>
    obtain ⟨e, es, rfl⟩ := List.exists_cons_of_length_eq_add_one hlength.symm
    replace hlength : ds.length = es.length := Nat.succ.inj hlength
    rw [List.forall_mem_cons] at hds hes
    have hlow := ofDigits_lt hds.2
    have hhigh := ofDigits_lt hes.2
    rw [ofDigits_cons, ofDigits_cons, hlength] at h
    rw [hlength] at hlow
    rw [digitText, digitText, List.map_cons, List.map_cons, List.cons_lt_cons_iff]
    have hall : ∀ d e : Fin 10, d < e → CodePoint.ofDecimal d < CodePoint.ofDecimal e := by decide
    rcases Nat.lt_trichotomy d e with hde | rfl | hde
    · exact .inl (hall ⟨d, hds.1⟩ ⟨e, hes.1⟩ hde)
    · exact .inr ⟨rfl, ih hlength hds.2 hes.2 (by omega)⟩
    · have hmul : (e + 1) * 10 ^ es.length ≤ d * 10 ^ es.length := Nat.mul_le_mul_right _ hde
      rw [Nat.add_mul, Nat.one_mul] at hmul
      omega

theorem length_padded {count n : Nat} (hcount : 0 < count) (h : n < 10 ^ count) :
    (padded count n).length = count := by
  have hdigits := length_digits_le hcount h
  simp only [padded_eq, digitText, List.length_map, List.length_append, List.length_replicate,
    length_ofNat_eq]
  omega

theorem padded_lt {count m n : Nat} (hcount : 0 < count) (hn : n < 10 ^ count) (h : m < n) :
    padded count m < padded count n := by
  have hm := h.trans hn
  have hlength := (length_padded hcount hm).trans (length_padded hcount hn).symm
  have hdigits : ∀ n, ∀ d ∈ List.replicate (count - (ofNat n).length) 0 ++ digits n, d < 10 := by
    intro n
    refine List.forall_mem_append.2 ⟨fun d hd => ?_, digits_lt_ten n⟩
    rw [List.eq_of_mem_replicate hd]
    decide
  rw [padded_eq, padded_eq, digitText, digitText, List.length_map, List.length_map] at hlength
  rw [padded_eq, padded_eq]
  refine digitText_lt hlength (hdigits m) (hdigits n) ?_
  rwa [ofDigits_zeros_append, ofDigits_zeros_append, ofDigits_digits, ofDigits_digits]

theorem padded_append_lt {count m n : Nat} (hcount : 0 < count) (hm : m < 10 ^ count)
    (hn : n < 10 ^ count) {t u : Text} (h : m < n ∨ m = n ∧ t < u) :
    padded count m ++ t < padded count n ++ u := by
  rcases h with h | ⟨rfl, h⟩
  · have hlength := (length_padded hcount hm).trans (length_padded hcount hn).symm
    exact Text.append_lt_append hlength (padded_lt hcount hn h) t u
  · exact List.append_left_lt h

end Numeral

end MaxEnt
