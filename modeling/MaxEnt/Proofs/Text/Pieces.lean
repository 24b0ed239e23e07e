import MaxEnt.Text.Blank

namespace MaxEnt.Text

theorem splitOn_cons (separator c : CodePoint) (t : Text) :
    splitOn separator (c :: t) = cutStep separator c (splitOn separator t) := rfl

theorem splitOn_ne_nil (separator : CodePoint) (t : Text) : splitOn separator t ≠ [] := by
  cases t with
  | nil => simp [splitOn]
  | cons c t =>
    rw [splitOn_cons]
    unfold cutStep
    split
    · simp
    · split <;> simp

theorem splitOn_separator (separator : CodePoint) (t : Text) :
    splitOn separator (separator :: t) = [] :: splitOn separator t := by
  simp [splitOn_cons, cutStep]

theorem splitOn_append {separator : CodePoint} {t u p : Text} {ps : List Text} (ht : separator ∉ t)
    (hu : splitOn separator u = p :: ps) : splitOn separator (t ++ u) = (t ++ p) :: ps := by
  induction t with
  | nil => exact hu
  | cons c t ih =>
    have hc : ¬ c = separator := fun h => ht (by simp [h])
    have ht' : separator ∉ t := fun h => ht (List.mem_cons_of_mem c h)
    rw [List.cons_append, splitOn_cons, ih ht']
    simp [cutStep, hc]

theorem splitOn_of_not_mem {separator : CodePoint} {t : Text} (h : separator ∉ t) :
    splitOn separator t = [t] := by
  have hs := splitOn_append (u := []) h rfl
  simpa using hs

theorem splitOn_flatMap {separator : CodePoint} {t : Text} {ts : List Text} (ht : separator ∉ t)
    (hts : ∀ u ∈ ts, separator ∉ u) :
    splitOn separator (t ++ ts.flatMap (separator :: ·)) = t :: ts := by
  induction ts generalizing t with
  | nil => simpa using splitOn_of_not_mem ht
  | cons u us ih =>
    have hu := ih (hts u (by simp)) (fun v hv => hts v (by simp [hv]))
    have hs : splitOn separator (separator :: (u ++ us.flatMap (separator :: ·))) = [] :: u :: us := by
      rw [splitOn_separator, hu]
    simpa using splitOn_append ht hs

theorem splitOn_intercalate {separator : CodePoint} {ts : List Text} (hne : ts ≠ [])
    (h : ∀ t ∈ ts, separator ∉ t) : splitOn separator (List.intercalate [separator] ts) = ts := by
  have hintercalate : ∀ (t : Text) (us : List Text),
      List.intercalate [separator] (t :: us) = t ++ us.flatMap (separator :: ·) := by
    intro t us
    induction us generalizing t with
    | nil => simp
    | cons u us ih => rw [List.intercalate_cons_cons, ih]; simp
  cases ts with
  | nil => exact absurd rfl hne
  | cons t us =>
    obtain ⟨ht, hus⟩ := List.forall_mem_cons.1 h
    rw [hintercalate, splitOn_flatMap ht hus]

theorem intercalate_splitOn (separator : CodePoint) (t : Text) :
    List.intercalate [separator] (splitOn separator t) = t := by
  have hsplit : splitOn separator t = List.splitOn separator t := by
    induction t with
    | nil => rfl
    | cons c t ih =>
      obtain ⟨p, ps, hps⟩ := List.exists_cons_of_ne_nil (List.splitOn_ne_nil separator t)
      rw [splitOn_cons, ih, List.splitOn_cons_eq_if_modifyHead, hps]
      by_cases hc : c = separator <;> simp [cutStep, hc]
  rw [hsplit, List.intercalate_splitOn]

theorem not_mem_of_mem_splitOn {separator : CodePoint} {t u : Text} (h : u ∈ splitOn separator t) :
    separator ∉ u := by
  induction t generalizing u with
  | nil =>
    rw [List.mem_singleton.1 h]
    simp
  | cons c t ih =>
    rw [splitOn_cons] at h
    unfold cutStep at h
    split at h
    · rcases List.mem_cons.1 h with rfl | h
      · simp
      · exact ih h
    · rename_i hc
      cases hpieces : splitOn separator t with
      | nil =>
        rw [hpieces] at h
        rw [List.mem_singleton.1 h]
        simpa using Ne.symm hc
      | cons p ps =>
        rw [hpieces] at h ih
        rcases List.mem_cons.1 h with rfl | h
        · have hp := ih List.mem_cons_self
          simpa [hp] using Ne.symm hc
        · exact ih (List.mem_cons_of_mem p h)

/-- Only no text at all makes the empty text: one piece that is empty would make it too. -/
theorem eq_nil_of_intercalate {separator : CodePoint} {ts : List Text}
    (hts : ∀ t ∈ ts, t ≠ [] ∧ separator ∉ t) (h : List.intercalate [separator] ts = []) : ts = [] := by
  by_cases hne : ts = []
  · exact hne
  · have hpieces := splitOn_intercalate hne fun t ht => (hts t ht).2
    rw [h] at hpieces
    exact absurd rfl (hts [] (hpieces ▸ List.mem_singleton_self [])).1

theorem intercalate_inj {separator : CodePoint} {ts us : List Text}
    (hts : ∀ t ∈ ts, t ≠ [] ∧ separator ∉ t) (hus : ∀ u ∈ us, u ≠ [] ∧ separator ∉ u)
    (h : List.intercalate [separator] ts = List.intercalate [separator] us) : ts = us := by
  by_cases htsNil : ts = []
  · subst htsNil
    exact (eq_nil_of_intercalate hus h.symm).symm
  · by_cases husNil : us = []
    · subst husNil
      exact eq_nil_of_intercalate hts h
    · rw [← splitOn_intercalate htsNil fun t ht => (hts t ht).2, h,
        splitOn_intercalate husNil fun u hu => (hus u hu).2]

section Stops

variable {p : CodePoint → Bool} {t u : Text}

theorem takeWhile_append (ht : ∀ c ∈ t, p c = true) (hu : ∀ c, u.head? = some c → p c = false) :
    (t ++ u).takeWhile p = t := by
  rw [List.takeWhile_append_of_pos ht]
  cases u with
  | nil => simp
  | cons c u => simp [hu c rfl]

theorem dropWhile_append (ht : ∀ c ∈ t, p c = true) (hu : ∀ c, u.head? = some c → p c = false) :
    (t ++ u).dropWhile p = u := by
  rw [List.dropWhile_append_of_pos ht]
  cases u with
  | nil => rfl
  | cons c u => simp [hu c rfl]

end Stops

theorem splitFirst_append {separator : CodePoint} {t : Text} (h : separator ∉ t) (u : Text) :
    splitFirst separator (t ++ separator :: u) = some (t, u) := by
  have ht : ∀ c ∈ t, (c != separator) = true := fun c hc => bne_iff_ne.2 fun he => h (he ▸ hc)
  have hu : ∀ c, (separator :: u).head? = some c → (c != separator) = false := by simp
  rw [splitFirst, dropWhile_append ht hu, takeWhile_append ht hu]

theorem splitFirst_of_not_mem {separator : CodePoint} {t : Text} (h : separator ∉ t) :
    splitFirst separator t = none := by
  have ht : ∀ c ∈ t, (c != separator) = true := fun c hc => bne_iff_ne.2 fun he => h (he ▸ hc)
  have hdrop := dropWhile_append (u := []) ht (by simp)
  rw [List.append_nil] at hdrop
  rw [splitFirst, hdrop]

theorem append_separator_inj {separator : CodePoint} {t v : Text} (ht : separator ∉ t)
    (hv : separator ∉ v) {u w : Text} (h : t ++ separator :: u = v ++ separator :: w) :
    t = v ∧ u = w := by
  have hsplit := congrArg (splitFirst separator) h
  rw [splitFirst_append ht, splitFirst_append hv] at hsplit
  exact Prod.mk.inj (Option.some.inj hsplit)

theorem eq_append_of_splitFirst {separator : CodePoint} {t u v : Text}
    (h : splitFirst separator t = some (u, v)) : t = u ++ separator :: v := by
  have hhead := List.head?_dropWhile_not (· != separator) t
  rw [splitFirst] at h
  cases hdrop : t.dropWhile (· != separator) with
  | nil =>
    rw [hdrop] at h
    cases h
  | cons c after =>
    rw [hdrop] at h hhead
    cases h
    obtain rfl : c = separator := by simpa using hhead
    rw [← hdrop, List.takeWhile_append_dropWhile]

theorem not_mem_of_splitFirst {separator : CodePoint} {t u v : Text}
    (h : splitFirst separator t = some (u, v)) : separator ∉ u := by
  rw [splitFirst] at h
  cases hdrop : t.dropWhile (· != separator) with
  | nil =>
    rw [hdrop] at h
    cases h
  | cons c after =>
    rw [hdrop] at h
    cases h
    intro hm
    have hne := List.all_eq_true.1 (List.all_takeWhile (p := (· != separator)) (l := t)) _ hm
    simp at hne

theorem splitLast_append {separator : CodePoint} {u : Text} (h : separator ∉ u) (t : Text) :
    splitLast separator (t ++ separator :: u) = some (t, u) := by
  have hreverse : (t ++ separator :: u).reverse = u.reverse ++ separator :: t.reverse := by simp
  have hu : separator ∉ u.reverse := by simpa using h
  rw [splitLast, hreverse, splitFirst_append hu]
  simp

theorem eq_append_of_splitLast {separator : CodePoint} {t u v : Text}
    (h : splitLast separator t = some (u, v)) : t = u ++ separator :: v := by
  rw [splitLast, Option.map_eq_some_iff] at h
  obtain ⟨⟨after, before⟩, hfirst, hparts⟩ := h
  cases hparts
  have hreverse := congrArg List.reverse (eq_append_of_splitFirst hfirst)
  rw [List.reverse_reverse] at hreverse
  rw [hreverse]
  simp

theorem not_mem_of_splitLast {separator : CodePoint} {t u v : Text}
    (h : splitLast separator t = some (u, v)) : separator ∉ v := by
  rw [splitLast, Option.map_eq_some_iff] at h
  obtain ⟨⟨after, before⟩, hfirst, hparts⟩ := h
  cases hparts
  simpa using not_mem_of_splitFirst hfirst

theorem dropWhile_of_forall {p : CodePoint → Bool} {t : Text} (h : ∀ c ∈ t, p c = false) :
    t.dropWhile p = t := by
  cases t with
  | nil => rfl
  | cons c t => simp [h c]

theorem trim_of_forall {p : CodePoint → Bool} {t : Text} (h : ∀ c ∈ t, p c = false) :
    trim p t = t := by
  rw [trim, dropLastWhile, dropWhile_of_forall h, dropWhile_of_forall (by simpa using h),
    List.reverse_reverse]

theorem forall_mem_intercalate {P : CodePoint → Prop} {separator : Text}
    (hseparator : ∀ c ∈ separator, P c) {ts : List Text} (hts : ∀ t ∈ ts, ∀ c ∈ t, P c) :
    ∀ c ∈ List.intercalate separator ts, P c := by
  induction ts with
  | nil => simp
  | cons t ts ih =>
    have ht := hts t (by simp)
    have hrest := ih fun u hu => hts u (List.mem_cons_of_mem t hu)
    cases ts with
    | nil => rwa [List.intercalate_singleton]
    | cons u us =>
      rw [List.intercalate_cons_cons, List.append_assoc]
      exact List.forall_mem_append.2 ⟨ht, List.forall_mem_append.2 ⟨hseparator, hrest⟩⟩

theorem length_cutStep_le (separator c : CodePoint) (pieces : List Text) :
    (cutStep separator c pieces).length ≤ pieces.length + 1 := by
  unfold cutStep
  split
  · simp
  · cases pieces <;> simp

theorem length_lines_le (t : Text) : (lines t).length ≤ t.length := by
  induction t with
  | nil => simp [lines]
  | cons c t ih =>
    have h := length_cutStep_le '\n' c (lines t)
    have hl : lines (c :: t) = cutStep '\n' c (lines t) := rfl
    rw [hl, List.length_cons]
    omega

end MaxEnt.Text
