import MaxEnt.Proofs.Store.History

namespace MaxEnt

namespace ModelStore

open FileTree

theorem laterPath_eq {p q r : Path} (hp : p = q ∨ p = r) (hq : q ≠ p → q.parts < p.parts)
    (hr : r ≠ p → r.parts < p.parts) : laterPath q r = p := by
  unfold laterPath
  by_cases hqp : q = p
  · subst hqp
    split
    · rename_i hlt
      by_contra hne
      exact lt_asymm hlt (hr hne)
    · rfl
  · obtain rfl := hp.resolve_left (Ne.symm hqp)
    rw [if_pos (hq hqp)]

theorem foldl_laterPath {p q : Path} {qs : List Path} (hp : p ∈ q :: qs)
    (h : ∀ r ∈ q :: qs, r ≠ p → r.parts < p.parts) : qs.foldl laterPath q = p := by
  induction qs generalizing q with
  | nil => exact (List.mem_singleton.1 hp).symm
  | cons r qs ih =>
    have hlater : laterPath q r = q ∨ laterPath q r = r := by
      unfold laterPath
      split <;> simp
    obtain ⟨hq, hr, hqs⟩ := (List.forall_mem_cons.1 h).imp id List.forall_mem_cons.1
    refine ih ?_ (List.forall_mem_cons.2 ⟨?_, hqs⟩)
    · rcases List.mem_cons.1 hp with rfl | hp
      · rw [laterPath_eq (.inl rfl) hq hr]
        exact List.mem_cons_self
      · rcases List.mem_cons.1 hp with rfl | hp
        · rw [laterPath_eq (.inr rfl) hq hr]
          exact List.mem_cons_self
        · exact List.mem_cons_of_mem _ hp
    · rcases hlater with hl | hl <;> rw [hl] <;> assumption

theorem lastPath?_eq_some {p : Path} {ps : List Path} (hp : p ∈ ps)
    (h : ∀ q ∈ ps, q ≠ p → q.parts < p.parts) : lastPath? ps = some p := by
  cases ps with
  | nil => cases hp
  | cons q qs => rw [lastPath?, foldl_laterPath hp h]

variable {start s : ModelStore} {here : Path} {h : List (Saving × Path)} {name version : Text}

theorem pattern_eq (name version : Text) :
    pattern name version = front name version ++ ↑ '*' :: Text.ofString ".bin" := by
  have hlast : Text.ofString "_*.bin" =
      Text.ofString "_" ++ (CodePoint.ofChar '*' :: Text.ofString ".bin") := by decide
  simp [pattern, front, Text.concat, hlast]

theorem exists_found (hs : Holds start here h s) (hname : PlainName name)
    (hversion : PlainName version) : ∃ names : List Text,
      s.latest? name version = .ok (lastPath? (names.map start.folder.child)) ∧
      ∀ t, t ∈ names ↔ ∃ e ∈ h, front name version <+: e.1.stamp ∧ t = e.1.modelFile := by
  have hplain := plain_front hname hversion
  have hbin : PlainName ".bin" := by decide
  have hslash : ↑ '/' ∉ front name version ++ ↑ '*' :: Text.ofString ".bin" := by
    have hstar : CodePoint.ofChar '/' ≠ CodePoint.ofChar '*' := by decide
    simp [hplain.slash, hbin.slash, hstar]
  have hne : front name version ≠ [] := by simp [front, Text.concat, Text.ofString]
  obtain ⟨names, hglob, hmem⟩ := glob_starred hs.located hplain.literal hbin.literal hslash hne
  refine ⟨names, ?_, fun t => ?_⟩
  · rw [latest?, pattern_eq, hglob, hs.folder]
    rfl
  · rw [hmem, hs.present]
    constructor
    · rintro ⟨⟨e, he, rfl | rfl⟩, middle, hends⟩
      · rw [← List.append_assoc] at hends
        exact ⟨e, he, ⟨middle, (List.append_cancel_right hends).symm⟩, rfl⟩
      · rw [← List.append_assoc] at hends
        exact absurd hends (e.1.metadataFile_ne_append _)
    · rintro ⟨e, he, ⟨middle, hstamp⟩, rfl⟩
      refine ⟨⟨e, he, .inl rfl⟩, middle, ?_⟩
      rw [Saving.modelFile, ← hstamp, List.append_assoc]

theorem latest?_eq_none (hs : Holds start here h s) (hname : PlainName name)
    (hversion : PlainName version) (hnone : ∀ e ∈ h, ¬ front name version <+: e.1.stamp) :
    s.latest? name version = .ok none := by
  obtain ⟨names, hlatest, hmem⟩ := exists_found hs hname hversion
  have hnil : names = [] := by
    rw [List.eq_nil_iff_forall_not_mem]
    intro t ht
    obtain ⟨e, he, hbegins, -⟩ := (hmem t).1 ht
    exact hnone e he hbegins
  rw [hlatest, hnil]
  rfl

theorem latest?_eq_some (hs : Holds start here h s) (hname : PlainName name)
    (hversion : PlainName version) {e : Saving × Path} (he : e ∈ h)
    (hbegins : front name version <+: e.1.stamp)
    (hlast : ∀ d ∈ h, front name version <+: d.1.stamp → d.1.modelFile ≠ e.1.modelFile →
      d.1.modelFile < e.1.modelFile) : s.latest? name version = .ok (some e.2) := by
  obtain ⟨names, hlatest, hmem⟩ := exists_found hs hname hversion
  have hpath := hs.path e he
  have hfound : lastPath? (names.map start.folder.child) = some e.2 := by
    refine lastPath?_eq_some ?_ fun q hq hne => ?_
    · rw [hpath]
      exact List.mem_map_of_mem ((hmem _).2 ⟨e, he, hbegins, rfl⟩)
    · obtain ⟨t, ht, rfl⟩ := List.mem_map.1 hq
      obtain ⟨d, hd, hbegins', rfl⟩ := (hmem t).1 ht
      rw [hpath] at hne ⊢
      exact Path.child_lt_child (hlast d hd hbegins' fun heq => hne (by rw [heq]))
  rw [hlatest, hfound]

theorem modelFile_lt {c d : Saving} (hname : c.name = d.name) (hversion : c.version = d.version)
    (htime : c.time < d.time) : c.modelFile < d.modelFile := by
  have hlength : c.time.text.length = d.time.text.length :=
    c.time.length_text.trans d.time.length_text.symm
  rw [Saving.modelFile, Saving.modelFile, Saving.stamp, Saving.stamp, stamp_eq, stamp_eq, hname,
    hversion, List.append_assoc, List.append_assoc]
  exact List.append_left_lt (Text.append_lt_append hlength (Moment.text_lt htime) _ _)

theorem front_append (name version rest : Text) :
    front name version ++ rest =
      name ++ CodePoint.ofChar '_' :: (version ++ CodePoint.ofChar '_' :: rest) := by
  have hmark : Text.ofString "_" = [CodePoint.ofChar '_'] := rfl
  simp [front, Text.concat, hmark]

/-- Without underscores in them, a name and a version can be told from the name of a file. -/
theorem eq_of_begins {c : Saving} (hname : ↑ '_' ∉ name ∧ ↑ '_' ∉ c.name)
    (hversion : ↑ '_' ∉ version ∧ ↑ '_' ∉ c.version) (h : front name version <+: c.stamp) :
    c.name = name ∧ c.version = version := by
  obtain ⟨rest, hrest⟩ := h
  rw [Saving.stamp, stamp_eq, front_append, front_append] at hrest
  have hcut := congrArg (Text.splitFirst ↑ '_') hrest
  rw [Text.splitFirst_append hname.1, Text.splitFirst_append hname.2, Option.some.injEq,
    Prod.mk.injEq] at hcut
  obtain ⟨rfl, hbehind⟩ := hcut
  have hcut' := congrArg (Text.splitFirst ↑ '_') hbehind
  rw [Text.splitFirst_append hversion.1, Text.splitFirst_append hversion.2, Option.some.injEq,
    Prod.mk.injEq] at hcut'
  exact ⟨rfl, hcut'.1.symm⟩

def under (name version : Text) (h : List (Saving × Path)) : List (Saving × Path) :=
  h.filter fun e => e.1.name = name ∧ e.1.version = version

theorem mem_under {e : Saving × Path} :
    e ∈ under name version h ↔ e ∈ h ∧ e.1.name = name ∧ e.1.version = version := by
  rw [under, List.mem_filter, decide_eq_true_eq]

/-- The last of the calls under a name and version is found, and none where there was none, as long
as the files of no other name or version begin as theirs. -/
theorem latest?_eq_getLast? (hfresh : start.Fresh) (hplain : ∀ e ∈ h, e.1.Plain)
    (hrun : History start h s) (htimes : h.Pairwise fun d e => d.1.time < e.1.time)
    (hname : PlainName name) (hversion : PlainName version)
    (hclear : ∀ e ∈ h, front name version <+: e.1.stamp → e.1.name = name ∧ e.1.version = version) :
    s.latest? name version = .ok ((under name version h).getLast?.map Prod.snd) := by
  obtain ⟨here, hs⟩ := hrun.holds hfresh hplain
  have hbegins : ∀ e ∈ h, front name version <+: e.1.stamp ↔ e ∈ under name version h := by
    intro e he
    rw [mem_under]
    refine ⟨fun hb => ⟨he, hclear e he hb⟩, ?_⟩
    rintro ⟨-, rfl, rfl⟩
    exact ⟨e.1.time.text, by rw [Saving.stamp, stamp_eq]⟩
  have hsorted : (under name version h).Pairwise fun d e => d.1.time < e.1.time :=
    htimes.sublist List.filter_sublist
  rcases List.eq_nil_or_concat' (under name version h) with hnil | ⟨before, e, hcut⟩
  · rw [hnil] at hbegins ⊢
    exact latest?_eq_none hs hname hversion fun e he hb => List.not_mem_nil ((hbegins e he).1 hb)
  · have hmem : ∀ d ∈ before ++ [e], d ∈ h ∧ d.1.name = name ∧ d.1.version = version := by
      intro d hd
      rwa [← hcut, mem_under] at hd
    rw [hcut] at hbegins hsorted ⊢
    obtain ⟨he, hename, heversion⟩ := hmem e (by simp)
    rw [List.getLast?_concat]
    refine latest?_eq_some hs hname hversion he ((hbegins e he).2 (by simp)) fun d hd hb hne => ?_
    rcases List.mem_append.1 ((hbegins d hd).1 hb) with hd' | hd'
    · obtain ⟨-, hdname, hdversion⟩ := hmem d (List.mem_append_left _ hd')
      exact modelFile_lt (hdname.trans hename.symm) (hdversion.trans heversion.symm)
        ((List.pairwise_append.1 hsorted).2.2 d hd' e (List.mem_singleton_self e))
    · rw [List.mem_singleton.1 hd'] at hne
      exact absurd rfl hne

theorem latest?_eq_getLast?_trialed :
    ∃ s, blank.Fresh ∧ (∀ e ∈ trialed 3, e.1.Plain) ∧ History blank (trialed 3) s ∧
      ((trialed 3).Pairwise fun d e => d.1.time < e.1.time) ∧ PlainName "m" ∧ PlainName "v1" ∧
      (∀ e ∈ trialed 3, front "m" "v1" <+: e.1.stamp → e.1.name = "m" ∧ e.1.version = "v1") ∧
      s.latest? "m" "v1" = .ok (some (blank.folder.child (trial "v1" 3).modelFile)) := by
  obtain ⟨s, hrun⟩ := exists_history_trialed 3
  have hplain : ∀ e ∈ trialed 3, e.1.Plain := fun e he => plain_trials _ (mem_trials he)
  have hname : PlainName "m" := by decide
  have hversion : PlainName "v1" := by decide
  have hmarks : ∀ c ∈ trials.take 3,
      (CodePoint.ofChar '_' ∉ Text.ofString "m" ∧ CodePoint.ofChar '_' ∉ c.name) ∧
        CodePoint.ofChar '_' ∉ Text.ofString "v1" ∧ CodePoint.ofChar '_' ∉ c.version := by decide
  have hclear : ∀ e ∈ trialed 3, front "m" "v1" <+: e.1.stamp →
      e.1.name = "m" ∧ e.1.version = "v1" := by
    intro e he hbegins
    obtain ⟨c, hc, rfl⟩ := List.mem_map.1 he
    exact eq_of_begins (hmarks c hc).1 (hmarks c hc).2 hbegins
  exact ⟨s, fresh_blank, hplain, hrun, pairwise_trialed 3, hname, hversion, hclear,
    latest?_eq_getLast? fresh_blank hplain hrun (pairwise_trialed 3) hname hversion hclear⟩

/-- The models of a version are hidden by those of one that begins as it does. -/
theorem latest?_ne_getLast?_trialed :
    ∃ s, blank.Fresh ∧ (∀ e ∈ trialed 4, e.1.Plain) ∧ History blank (trialed 4) s ∧
      ((trialed 4).Pairwise fun d e => d.1.time < e.1.time) ∧ PlainName "m" ∧ PlainName "v1" ∧
      s.latest? "m" "v1" = .ok (some (blank.folder.child (trial "v1_beta" 4).modelFile)) ∧
      s.latest? "m" "v1" ≠ .ok ((under "m" "v1" (trialed 4)).getLast?.map Prod.snd) := by
  obtain ⟨s, hrun⟩ := exists_history_trialed 4
  have hplain : ∀ e ∈ trialed 4, e.1.Plain := fun e he => plain_trials _ (mem_trials he)
  have hname : PlainName "m" := by decide
  have hversion : PlainName "v1" := by decide
  obtain ⟨here, hs⟩ := hrun.holds fresh_blank hplain
  have hnames : ∀ t ∈ trials.map Saving.modelFile, front "m" "v1" <+: t →
      t ≠ ↑ "m_v1_beta_20240102_030405_000004.bin" →
        t < ↑ "m_v1_beta_20240102_030405_000004.bin" := by
    rw [modelFile_trials]
    decide
  have hfile : (trial "v1_beta" 4).modelFile = ↑ "m_v1_beta_20240102_030405_000004.bin" :=
    congrArg (·[3]!) modelFile_trials
  have hbegins : front "m" "v1" <+: (trial "v1_beta" 4).stamp := by
    have hfront : front "m" "v1" <+: front "m" "v1_beta" := by decide
    rw [Saving.stamp, stamp_eq]
    exact hfront.trans (List.prefix_append _ _)
  have hmem : (trial "v1_beta" 4, blank.folder.child (trial "v1_beta" 4).modelFile) ∈ trialed 4 :=
    List.mem_map.2 ⟨_, by simp [trials], rfl⟩
  have hlatest := latest?_eq_some hs hname hversion hmem hbegins fun d hd hb => by
    rw [hfile]
    exact hnames _ (List.mem_map_of_mem (mem_trials hd)) (hb.trans (List.prefix_append _ _))
  have hlast : (under "m" "v1" (trialed 4)).getLast?.map Prod.snd =
      some (blank.folder.child (trial "v1" 3).modelFile) := rfl
  refine ⟨s, fresh_blank, hplain, hrun, pairwise_trialed 4, hname, hversion, hlatest, ?_⟩
  rw [hlatest, hlast, Ne, Except.ok.injEq, Option.some.injEq, Path.child_inj]
  intro heq
  have htime : (trial "v1_beta" 4).time ≠ (trial "v1" 3).time := by decide
  exact htime (Saving.time_eq_of_stamp_eq (List.append_cancel_right heq))

end ModelStore

end MaxEnt
