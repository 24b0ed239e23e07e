import MaxEnt.Proofs.Codec.RoundTrip
import MaxEnt.Proofs.Codec.Watching

namespace MaxEnt

namespace Reader

variable {σ α β : Type} {r : Reader σ} {read : Reading σ α} {next : α → Reading σ β}
  {more : Prop} {s t : σ}

def Fails (read : Reading σ α) (s : σ) : Prop :=
  ∃ e t, read.run s = (.error e, t) ∧ e.IsFormat

structure Ended (r : Reader σ) (s : σ) : Prop where
  utf : Fails r.utf s
  int : Fails r.int s
  double : Fails r.double s

/-- Reading fails, or what it takes, behind which more is expected, is the last of the input. -/
def Stops (r : Reader σ) (more : Prop) (read : Reading σ α) (s : σ) : Prop :=
  Fails read s ∨ more ∧ ∃ x t, read.run s = (.ok x, t) ∧ r.Ended t

def Lacks (r : Reader σ) (more : Prop) (s : σ) : Field → Prop
  | .utf _ => r.Stops more r.utf s
  | .int _ => r.Stops more r.int s
  | .double _ => r.Stops more r.double s

/-- Of the fields, behind which more are expected or not, the first ones stand in front of the input
up to one where it stops. What is found in the place of that one may be another. -/
def Cut (r : Reader σ) (more : Prop) : σ → List Field → Prop
  | _, [] => False
  | s, f :: fs => r.Lacks (fs ≠ [] ∨ more) s f ∨ ∃ u, r.Takes s f u ∧ Cut r more u fs

theorem Fails.bind (h : Fails read s) : Fails (read >>= next) s := by
  obtain ⟨e, t, hread, he⟩ := h
  refine ⟨e, t, ?_, he⟩
  rw [Reading.run_bind, hread]

theorem Fails.bind_of_ok {x : α} (h : Fails (next x) t) (hread : read.run s = (.ok x, t)) :
    Fails (read >>= next) s := by
  obtain ⟨e, u, hnext, he⟩ := h
  refine ⟨e, u, ?_, he⟩
  rw [Reading.run_bind_of_ok hread, hnext]

theorem Stops.fails_bind (h : r.Stops more read s) (hnext : ∀ x t, r.Ended t → Fails (next x) t) :
    Fails (read >>= next) s := by
  obtain h | ⟨-, x, t, hread, ht⟩ := h
  · exact h.bind
  · exact (hnext x t ht).bind_of_ok hread

theorem Cut.append {fs gs : List Field} (h : r.Cut more s (fs ++ gs)) :
    r.Cut (gs ≠ [] ∨ more) s fs ∨ ∃ u, r.TakesAll s fs u ∧ r.Cut more u gs := by
  induction fs generalizing s with
  | nil => exact .inr ⟨s, rfl, h⟩
  | cons f fs ih =>
    obtain h | ⟨u, hf, hu⟩ := h
    · have hmore : (fs ++ gs ≠ [] ∨ more) = (fs ≠ [] ∨ gs ≠ [] ∨ more) := by
        rw [ne_eq, List.append_eq_nil_iff, not_and_or, or_assoc]
      exact .inl (.inl (hmore ▸ h))
    · obtain hu | ⟨v, hfs, hv⟩ := ih hu
      · exact .inl (.inr ⟨u, hf, hu⟩)
      · exact .inr ⟨v, ⟨u, hf, hfs⟩, hv⟩

theorem times_ended {count : Nat} (hread : Fails read t) (hcount : count ≠ 0) :
    Fails (read.times count) t := by
  obtain ⟨n, rfl⟩ := Nat.exists_eq_succ_of_ne_zero hcount
  exact hread.bind

theorem times_stops {f : α → Field} {g : α → β} {read : Reading σ β} {xs : List α}
    (hf : ∀ x ∈ xs, ∀ s t, r.Takes s (f x) t → read.run s = (.ok (g x), t))
    (hl : ∀ x ∈ xs, ∀ more s, r.Lacks more s (f x) → r.Stops more read s)
    (he : ∀ t, r.Ended t → Fails read t) (h : r.Cut more s (xs.map f)) :
    r.Stops more (read.times xs.length) s := by
  induction xs generalizing s with
  | nil => exact h.elim
  | cons x xs ih =>
    rw [List.length_cons, Reading.times]
    obtain h | ⟨u, hx, hu⟩ := h
    · obtain h | ⟨hmore, y, t, hread, ht⟩ := hl x (by simp) _ s h
      · exact .inl h.bind
      · by_cases hxs : xs = []
        · subst hxs
          refine .inr ⟨by simpa using hmore, [y], t, ?_, ht⟩
          rw [Reading.run_bind_of_ok hread]
          rfl
        · have hrest := times_ended (he t ht) (List.length_eq_zero_iff.not.2 hxs)
          refine .inl (Fails.bind_of_ok ?_ hread)
          exact hrest.bind
    · have hread := hf x (by simp) s u hx
      obtain h | ⟨hmore, ys, t, hys, ht⟩ := ih (fun y hy => hf y (List.mem_cons_of_mem x hy))
        (fun y hy => hl y (List.mem_cons_of_mem x hy)) hu
      · refine .inl (Fails.bind_of_ok ?_ hread)
        exact h.bind
      · refine .inr ⟨hmore, g x :: ys, t, ?_, ht⟩
        rw [Reading.run_bind_of_ok hread, Reading.run_bind_of_ok hys]
        rfl

theorem count_stops {n : Int} (h : r.Lacks more s (.int n)) : r.Stops more r.count s := by
  obtain h | ⟨hmore, k, t, hread, ht⟩ := h
  · exact .inl h.bind
  · by_cases hk : k < 0
    · refine .inl (Fails.bind_of_ok ?_ hread)
      rw [if_pos hk]
      exact ⟨_, t, rfl, trivial⟩
    · refine .inr ⟨hmore, k.toNat, t, ?_, ht⟩
      rw [count, Reading.run_bind_of_ok hread, if_neg hk]
      rfl

/-- Where a list is cut, reading it fails or takes the last of the input. If nothing more is
expected, that is so only if the length was found to be zero. -/
theorem list_stops {f : α → Field} {g : α → β} {read : Reading σ β} {xs : List α}
    (hf : ∀ x ∈ xs, ∀ s t, r.Takes s (f x) t → read.run s = (.ok (g x), t))
    (hl : ∀ x ∈ xs, ∀ more s, r.Lacks more s (f x) → r.Stops more read s)
    (he : ∀ t, r.Ended t → Fails read t) (h : r.Cut more s (.int xs.length :: xs.map f)) :
    Fails (r.list read) s ∨ ∃ ys t, (r.list read).run s = (.ok ys, t) ∧ r.Ended t ∧
      (more ∨ xs ≠ [] ∧ ys = []) := by
  rw [list]
  obtain h | ⟨u, hcount, hu⟩ := h
  · obtain h | ⟨hmore, n, t, hread, ht⟩ := count_stops h
    · exact .inl h.bind
    · by_cases hn : n = 0
      · subst hn
        refine .inr ⟨[], t, ?_, ht, ?_⟩
        · rw [Reading.run_bind_of_ok hread]
          rfl
        · rw [ne_eq, List.map_eq_nil_iff] at hmore
          exact hmore.symm.imp id fun hxs => ⟨hxs, rfl⟩
      · exact .inl ((times_ended (he t ht) hn).bind_of_ok hread)
  · have hread := count_run hcount
    obtain h | ⟨hmore, ys, t, hys, ht⟩ := times_stops hf hl he hu
    · exact .inl (h.bind_of_ok hread)
    · refine .inr ⟨ys, t, ?_, ht, .inl hmore⟩
      rw [Reading.run_bind_of_ok hread, hys]

theorem groupPattern_stops {token : Text} (h : r.Lacks more s (.utf token)) :
    r.Stops more r.groupPattern s := by
  obtain h | ⟨hmore, other, t, hread, ht⟩ := h
  · exact .inl h.bind
  · cases hp : GroupPattern.ofToken? other with
    | none =>
      refine .inl (Fails.bind_of_ok ?_ hread)
      simp only [GroupPattern.ofToken, hp]
      exact ⟨_, t, rfl, trivial⟩
    | some p => exact .inr ⟨hmore, p, t, groupPattern_run hp hread, ht⟩

theorem predicates_ended {shapes : List (Text × List Int)} (ht : r.Ended t)
    (h : ∃ shape ∈ shapes, shape.2 ≠ []) : Fails (r.predicates shapes) t := by
  induction shapes with
  | nil => simp at h
  | cons shape shapes ih =>
    obtain ⟨name, outcomes⟩ := shape
    by_cases houtcomes : outcomes = []
    · subst houtcomes
      have hrest : ∃ shape ∈ shapes, shape.2 ≠ [] := by simpa using h
      refine Fails.bind_of_ok ?_ (Reading.run_pure [] t)
      exact (ih hrest).bind
    · exact (times_ended ht.double (List.length_eq_zero_iff.not.2 houtcomes)).bind

theorem predicates_fails {ps : List (Text × Predicate Binary64)}
    (h : r.Cut False s (ps.flatMap fun p => p.2.params.map .double)) :
    Fails (r.predicates (ps.map fun p => (p.1, p.2.outcomes))) s := by
  induction ps generalizing s with
  | nil => exact h.elim
  | cons p ps ih =>
    have hlength : p.2.outcomes.length = p.2.params.length := by
      simp [Predicate.outcomes, Predicate.params]
    rw [List.map_cons, predicates, hlength]
    rw [List.flatMap_cons] at h
    obtain h | ⟨u, hp, hu⟩ := h.append
    · have hparams := times_stops (g := id) (fun x _ s t hx => double_run hx)
        (fun _ _ _ _ hx => hx) (fun _ ht => ht.double) h
      obtain h | ⟨hmore, xs, t, hxs, ht⟩ := hparams
      · exact h.bind
      · have hrest : ∃ shape ∈ ps.map fun p => (p.1, p.2.outcomes), shape.2 ≠ [] := by
          rw [or_false, ne_eq, List.flatMap_eq_nil_iff, not_forall₂] at hmore
          obtain ⟨q, hq, hparams⟩ := hmore
          refine ⟨_, List.mem_map_of_mem hq, ?_⟩
          simpa [Predicate.outcomes, Predicate.params] using hparams
        refine Fails.bind_of_ok ?_ hxs
        exact (predicates_ended ht hrest).bind
    · have hparams := times_run (g := id) (fun x _ s t hx => double_run hx) hp
      refine Fails.bind_of_ok ?_ hparams
      exact (ih hu).bind

theorem run_checkCovered {covered names : Nat} (h : covered = names) (t : σ) :
    (ExceptT.mk (pure (checkCovered covered names)) : Reading σ Unit).run t = (.ok (), t) := by
  rw [h, checkCovered_self]
  rfl

theorem assemble_ended {labels names : List Text} {patterns : List GroupPattern} (ht : r.Ended t)
    (hdigits : (Numeral.digits (GroupPattern.covered patterns)).length ≤ Numeral.maxDigits)
    (h : GroupPattern.covered patterns ≠ names.length ∨
      ∃ outcomes ∈ GroupPattern.spread patterns, outcomes ≠ []) :
    Fails (r.assemble labels patterns names) t := by
  rw [assemble]
  by_cases hcovered : GroupPattern.covered patterns = names.length
  · obtain ⟨outcomes, hmem, houtcomes⟩ := h.resolve_left (not_not.2 hcovered)
    have hspread : (GroupPattern.spread patterns).length = names.length := by
      rw [PredicateGroup.length_spread, hcovered]
    rw [← List.map_snd_zip hspread.le, List.mem_map] at hmem
    obtain ⟨shape, hshape, rfl⟩ := hmem
    refine Fails.bind_of_ok ?_ (run_checkCovered hcovered t)
    exact (predicates_ended ht ⟨shape, hshape, houtcomes⟩).bind
  · apply Fails.bind
    rw [checkCovered, if_neg hcovered, if_pos hdigits]
    exact ⟨_, t, rfl, trivial⟩

theorem assemble_fails {labels names : List Text} {patterns : List GroupPattern}
    (ps : List (Text × Predicate Binary64)) (hcovered : GroupPattern.covered patterns = names.length)
    (hshapes : names.zip (GroupPattern.spread patterns) = ps.map fun p => (p.1, p.2.outcomes))
    (h : r.Cut False s (ps.flatMap fun p => p.2.params.map .double)) :
    Fails (r.assemble labels patterns names) s := by
  rw [assemble, hshapes]
  refine Fails.bind_of_ok ?_ (run_checkCovered hcovered s)
  exact (predicates_fails h).bind

theorem texts_stops {f : α → Text} {xs : List α}
    (h : r.Cut more s (.int xs.length :: xs.map fun x => .utf (f x))) :
    Fails (r.list r.utf) s ∨ ∃ ys t, (r.list r.utf).run s = (.ok ys, t) ∧ r.Ended t ∧
      (more ∨ xs ≠ [] ∧ ys = []) :=
  list_stops (f := fun x => .utf (f x)) (g := f) (fun _ _ _ _ hx => hx) (fun _ _ _ _ hx => hx)
    (fun _ ht => ht.utf) h

theorem texts_run {f : α → Text} {xs : List α}
    (h : r.TakesAll s (.int xs.length :: xs.map fun x => .utf (f x)) t) :
    (r.list r.utf).run s = (.ok (xs.map f), t) :=
  list_run (f := fun x => .utf (f x)) (fun _ _ _ _ hx => hx) h

theorem Ended.list (ht : r.Ended t) (read : Reading σ α) : Fails (r.list read) t := ht.int.bind.bind

end Reader

def Field.alter (a : Text → Text) (b : Binary64 → Binary64) : Field → Field
  | .utf value => .utf (a value)
  | .int value => .int value
  | .double value => .double (b value)

namespace Model

variable {σ : Type} {r : Reader σ} {s : σ} {m : Model Binary64} {a : Text → Text}
  {b : Binary64 → Binary64}

theorem fields_alter (htag : a tag = tag) (htokens : ∀ g ∈ m.groups, a g.token = g.token) :
    m.fields.map (Field.alter a b) = .utf tag :: .int 1 :: .double (b .one) ::
      ((.int m.labels.length :: m.labels.map fun label => Field.utf (a label)) ++
        ((.int m.groups.length :: m.groups.map fun g => Field.utf g.token) ++
          ((.int m.sorted.length :: m.sorted.map fun p => Field.utf (a p.name)) ++
            m.sorted.flatMap fun p => (p.params.map b).map Field.double))) := by
  have hgroups : (m.groups.map fun g => Field.utf (a g.token)) = m.groups.map fun g => .utf g.token :=
    List.map_congr_left fun g hg => congrArg Field.utf (htokens g hg)
  rw [groups] at hgroups
  simp [fields, groups, Field.alter, htag, hgroups, Function.comp_def, List.map_flatMap]

theorem names_fail (hpredicates : m.predicates.size < 10 ^ Numeral.maxDigits)
    (h : r.Cut False s ((.int m.sorted.length :: m.sorted.map fun p => .utf (a p.name)) ++
      m.sorted.flatMap fun p => (p.params.map b).map .double)) (labels : List Text) :
    Reader.Fails (r.list r.utf >>= r.assemble labels (m.groups.map PredicateGroup.shape)) s := by
  have hcovered : GroupPattern.covered (m.groups.map PredicateGroup.shape) = m.sorted.length := by
    rw [groups, PredicateGroup.covered_ofList]
  have hspread : GroupPattern.spread (m.groups.map PredicateGroup.shape) =
      m.sorted.map (·.outcomes) := by
    rw [groups, PredicateGroup.spread_ofList]
  have hlength : ∀ p ∈ m.sorted, p.outcomes.length = (p.params.map b).length := by
    intro p hp
    obtain ⟨e, -, rfl⟩ := exists_entry_of_mem_sorted hp
    simp [Predicate.outcomes, Predicate.params]
  obtain h | ⟨u, hnames, h⟩ := Reader.Cut.append h
  · obtain h | ⟨names, t, hnames, ht, hmore⟩ := Reader.texts_stops h
    · exact h.bind
    · have hdigits : (Numeral.digits m.sorted.length).length ≤ Numeral.maxDigits :=
        Numeral.length_digits_le (by decide) (m.length_sorted ▸ hpredicates)
      refine Reader.Fails.bind_of_ok (Reader.assemble_ended ht (hcovered ▸ hdigits) ?_) hnames
      rw [hcovered, hspread]
      obtain hmore | ⟨hne, rfl⟩ := hmore
      · right
        rw [or_false, ne_eq, List.flatMap_eq_nil_iff, not_forall₂] at hmore
        obtain ⟨p, hp, hparams⟩ := hmore
        refine ⟨p.outcomes, List.mem_map_of_mem hp, ?_⟩
        rw [← List.length_pos_iff, hlength p hp, List.length_pos_iff]
        exact fun he => hparams (congrArg (List.map Field.double) he)
      · left
        rw [List.length_nil]
        exact (List.length_pos_iff.2 hne).ne'
  · refine Reader.Fails.bind_of_ok ?_ (Reader.texts_run hnames)
    have houtcomes : ∀ p ∈ m.sorted, Predicate.outcomes ⟨p.outcomes.zip (p.params.map b)⟩ = p.outcomes :=
      fun p hp => List.map_fst_zip (hlength p hp).le
    have hvalues : ∀ p ∈ m.sorted, Predicate.params ⟨p.outcomes.zip (p.params.map b)⟩ = p.params.map b :=
      fun p hp => List.map_snd_zip (hlength p hp).ge
    refine Reader.assemble_fails
      (m.sorted.map fun p => (a p.name, ⟨p.outcomes.zip (p.params.map b)⟩)) ?_ ?_ ?_
    · rw [hcovered, List.length_map]
    · rw [hspread, List.zip_map', List.map_map]
      exact List.map_congr_left fun p hp => by rw [Function.comp_apply, houtcomes p hp]
    · rw [List.flatMap_map]
      rwa [List.flatMap_congr fun p hp => by rw [hvalues p hp]]

theorem model_fails (hlabels : m.labels.length < 10 ^ Numeral.maxDigits)
    (hpredicates : m.predicates.size < 10 ^ Numeral.maxDigits)
    (htag : a tag = tag) (htokens : ∀ g ∈ m.groups, a g.token = g.token)
    (h : r.Cut False s (m.fields.map (Field.alter a b))) : Reader.Fails r.model s := by
  rw [fields_alter htag htokens] at h
  rw [Reader.model_eq]
  obtain h | ⟨s₁, htag, h⟩ := h
  · refine h.fails_bind fun tag t ht => ?_
    split
    · exact ⟨_, t, rfl, trivial⟩
    · exact ht.int.bind
  refine Reader.Fails.bind_of_ok ?_ htag
  rw [if_neg (not_not.2 rfl), Reader.untagged]
  obtain h | ⟨s₂, hone, h⟩ := h
  · exact h.fails_bind fun _ t ht => ht.double.bind
  refine Reader.Fails.bind_of_ok ?_ hone
  obtain h | ⟨s₃, hdouble, h⟩ := h
  · exact h.fails_bind fun _ t ht => (ht.list _).bind
  refine Reader.Fails.bind_of_ok ?_ hdouble
  obtain h | ⟨s₄, hls, h⟩ := Reader.Cut.append h
  · obtain h | ⟨ls, t, hls, ht, -⟩ := Reader.texts_stops h
    · exact h.bind
    · refine Reader.Fails.bind_of_ok ?_ hls
      exact (ht.list _).bind
  refine Reader.Fails.bind_of_ok ?_ (Reader.texts_run hls)
  have hread : ∀ g ∈ m.groups, ∀ s t, r.Takes s (.utf g.token) t →
      r.groupPattern.run s = (.ok g.shape, t) := fun g hg _ _ hs =>
    Reader.groupPattern_run (ofToken?_token hlabels hpredicates hg) hs
  obtain h | ⟨s₅, hgs, h⟩ := Reader.Cut.append h
  · obtain h | ⟨patterns, t, hpatterns, ht, -⟩ := Reader.list_stops hread
      (fun g _ _ _ hs => Reader.groupPattern_stops hs) (fun _ ht => ht.utf.bind) h
    · exact h.bind
    · refine Reader.Fails.bind_of_ok ?_ hpatterns
      exact (ht.list _).bind
  refine Reader.Fails.bind_of_ok ?_ (Reader.list_run hread hgs)
  exact names_fail hpredicates h _

end Model

end MaxEnt
