import MaxEnt.Proofs.Codec.Watching

namespace MaxEnt

namespace Reader

inductive Many {α : Type} (P : α → List Field → Prop) : List α → List Field → Prop
  | nil : Many P [] []
  | cons {x : α} {xs : List α} {fs gs : List Field} (head : P x fs) (tail : Many P xs gs) :
      Many P (x :: xs) (fs ++ gs)

theorem Many.eq_map {α : Type} {f : α → Field} {xs : List α} {fs : List Field}
    (h : Many (fun x gs => gs = [f x]) xs fs) : fs = xs.map f := by
  induction h with
  | nil => rfl
  | cons head _ ih =>
    subst head ih
    rfl

theorem Many.tokens {ps : List GroupPattern} {fs : List Field}
    (h : Many (fun p gs => ∃ token, gs = [.utf token] ∧ GroupPattern.ofToken? token = some p) ps fs) :
    ∃ tokens : List Text, fs = tokens.map .utf ∧ tokens.length = ps.length ∧
      tokens.mapM GroupPattern.ofToken? = some ps := by
  induction h with
  | nil => exact ⟨[], rfl, rfl, rfl⟩
  | cons head _ ih =>
    obtain ⟨token, rfl, htoken⟩ := head
    obtain ⟨tokens, rfl, hlength, htokens⟩ := ih
    refine ⟨token :: tokens, rfl, by rw [List.length_cons, List.length_cons, hlength], ?_⟩
    rw [List.mapM_cons, htoken, htokens]
    rfl

variable {σ α β : Type} {size : σ → Nat} {sound : σ → Prop}

/-- Every field that is found uses up a part of the input. -/
structure Spending (size : σ → Nat) (sound : σ → Prop) (r : Reader σ) : Prop where
  utf : Spends size sound r.utf
  int : Spends size sound r.int
  double : Spends size sound r.double

variable {r : Reader σ}

theorem Spending.tracks_utf (h : Spending size sound r) :
    Tracks size sound r.utf r.watched.utf (fun x fs => fs = [.utf x]) fun e _ => e.IsFormat :=
  tracks_watch h.utf .utf

theorem Spending.tracks_int (h : Spending size sound r) :
    Tracks size sound r.int r.watched.int (fun x fs => fs = [.int x]) fun e _ => e.IsFormat :=
  tracks_watch h.int .int

theorem Spending.tracks_double (h : Spending size sound r) :
    Tracks size sound r.double r.watched.double (fun x fs => fs = [.double x])
      fun e _ => e.IsFormat :=
  tracks_watch h.double .double

theorem Tracks.times {read : Reading σ α} {watching : Reading (Watched σ) α}
    {P : α → List Field → Prop} (h : Tracks size sound read watching P fun e _ => e.IsFormat)
    (n : Nat) :
    Tracks size sound (read.times n) (watching.times n) (fun xs fs => xs.length = n ∧ Many P xs fs)
      fun e _ => e.IsFormat := by
  induction n with
  | zero => exact tracks_pure ⟨rfl, .nil⟩
  | succ n ih =>
    refine h.bind fun x fs hx => ih.bind fun xs gs hxs => tracks_pure ?_
    rw [List.append_nil]
    exact ⟨by rw [List.length_cons, hxs.1], .cons hx hxs.2⟩

theorem Spending.tracks_count (h : Spending size sound r) :
    Tracks size sound r.count r.watched.count (fun n fs => fs = [.int n]) fun e _ => e.IsFormat := by
  refine h.tracks_int.bind fun n fs hn => ?_
  subst hn
  split
  · exact tracks_throw trivial
  · rename_i hn
    refine tracks_pure ?_
    rw [Int.toNat_of_nonneg (by omega)]
    rfl

theorem Spending.tracks_list (h : Spending size sound r) {read : Reading σ α}
    {watching : Reading (Watched σ) α} {P : α → List Field → Prop}
    (hread : Tracks size sound read watching P fun e _ => e.IsFormat) :
    Tracks size sound (r.list read) (r.watched.list watching)
      (fun xs fs => ∃ gs, fs = .int xs.length :: gs ∧ Many P xs gs) fun e _ => e.IsFormat := by
  refine h.tracks_count.bind fun n fs hn => (hread.times n).imp (fun xs gs hxs => ?_) fun _ _ he => he
  subst hn
  exact ⟨gs, by rw [hxs.1]; rfl, hxs.2⟩

theorem Spending.tracks_groupPattern (h : Spending size sound r) :
    Tracks size sound r.groupPattern r.watched.groupPattern
      (fun p fs => ∃ token, fs = [.utf token] ∧ GroupPattern.ofToken? token = some p)
      fun e _ => e.IsFormat := by
  refine h.tracks_utf.bind fun token fs htoken => ?_
  subst htoken
  unfold GroupPattern.ofToken
  cases hp : GroupPattern.ofToken? token with
  | none => exact tracks_throw trivial
  | some p => exact tracks_pure ⟨token, rfl, hp⟩

theorem Spending.tracks_predicates (h : Spending size sound r) (shapes : List (Text × List Int)) :
    Tracks size sound (r.predicates shapes) (r.watched.predicates shapes)
      (fun ps fs => ps.map (fun p => (p.1, p.2.outcomes)) = shapes ∧
        fs = (ps.map (·.2.params)).flatten.map .double)
      fun e _ => e.IsFormat := by
  induction shapes with
  | nil => exact tracks_pure ⟨rfl, rfl⟩
  | cons shape shapes ih =>
    obtain ⟨name, outcomes⟩ := shape
    refine (h.tracks_double.times outcomes.length).bind fun params fs hparams =>
      ih.bind fun ps gs hps => tracks_pure ?_
    obtain ⟨hlength, hmany⟩ := hparams
    obtain ⟨rfl, rfl⟩ := hps
    have houtcomes : Predicate.outcomes ⟨outcomes.zip params⟩ = outcomes :=
      List.map_fst_zip hlength.ge
    have hvalues : Predicate.params ⟨outcomes.zip params⟩ = params := List.map_snd_zip hlength.le
    refine ⟨by rw [List.map_cons, houtcomes], ?_⟩
    rw [hmany.eq_map, List.map_cons, hvalues, List.flatten_cons, List.map_append, List.append_nil]

theorem tracks_mk {P : α → List Field → Prop} {E : ReadError → List Field → Prop}
    {result : Except ReadError α} (hok : ∀ x, result = .ok x → P x [])
    (herror : ∀ e, result = .error e → E e []) :
    Tracks size sound (ExceptT.mk (pure result)) (ExceptT.mk (pure result)) P E := by
  cases result with
  | ok x => exact tracks_pure (hok x rfl)
  | error e => exact tracks_throw (herror e rfl)

theorem checkCovered_ok {covered names : Nat} (h : checkCovered covered names = .ok ()) :
    covered = names := by
  unfold checkCovered at h
  split at h
  · assumption
  · split at h <;> cases h

theorem checkCovered_error {covered names : Nat} {e : ReadError}
    (h : checkCovered covered names = .error e) :
    e.IsFormat ∨ e = .hugeCount ∧ Numeral.maxDigits < (Numeral.digits covered).length := by
  unfold checkCovered at h
  split at h
  · cases h
  · split at h
    · cases h
      exact Or.inl trivial
    · rename_i hdigits
      cases h
      exact Or.inr ⟨rfl, by omega⟩

theorem Spending.tracks_assemble (h : Spending size sound r) (labels : List Text)
    (patterns : List GroupPattern) (names : List Text) :
    Tracks size sound (r.assemble labels patterns names) (r.watched.assemble labels patterns names)
      (fun m fs => GroupPattern.covered patterns = names.length ∧
        ∃ ps : List (Text × Predicate Binary64),
          ps.map (fun p => (p.1, p.2.outcomes)) = names.zip (GroupPattern.spread patterns) ∧
          fs = (ps.map (·.2.params)).flatten.map .double ∧
          Model.ofTable labels (Table.ofList ps) = .ok m)
      (fun e fs => e.IsFormat ∨ e = .hugeCount ∧ fs = [] ∧
        Numeral.maxDigits < (Numeral.digits (GroupPattern.covered patterns)).length) := by
  refine Tracks.bind (P := fun _ fs => fs = [] ∧ GroupPattern.covered patterns = names.length)
    (tracks_mk (fun _ hok => ⟨rfl, checkCovered_ok hok⟩) fun e he => ?_) fun _ fs hcovered => ?_
  · exact (checkCovered_error he).imp id fun ⟨h₁, h₂⟩ => ⟨h₁, rfl, h₂⟩
  obtain ⟨rfl, hcovered⟩ := hcovered
  refine ((h.tracks_predicates _).imp (fun _ _ hps => hps) fun e _ he => Or.inl he).bind
    fun ps gs hps => ?_
  obtain ⟨hshapes, rfl⟩ := hps
  cases hm : Model.ofTable labels (Table.ofList ps) with
  | ok m => exact tracks_pure ⟨hcovered, ps, hshapes, by simp, hm⟩
  | error e => exact tracks_throw (Or.inl trivial)

end Reader

end MaxEnt
