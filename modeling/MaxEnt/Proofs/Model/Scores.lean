import MaxEnt.Model.Probability
import MaxEnt.Proofs.Except

namespace MaxEnt

section

variable {κ : Type} {context : List Text}

theorem map_fst_pair (context : List Text) (values : List κ) :
    (valued.pair context values).map Prod.fst = context := by
  induction context generalizing values with
  | nil => rfl
  | cons name context ih => cases values <;> simp [valued.pair, ih]

theorem mem_pair_none_iff {name : Text} {values : List κ} :
    (name, none) ∈ valued.pair context values ↔
      ∃ place, context[place]? = some name ∧ values.length ≤ place := by
  induction context generalizing values with
  | nil => simp [valued.pair]
  | cons first context ih =>
    cases values with
    | nil =>
      rw [valued.pair, List.mem_cons, ih, Prod.mk.injEq, and_iff_left rfl]
      constructor
      · rintro (rfl | ⟨place, hplace, -⟩)
        · exact ⟨0, rfl, Nat.le_refl 0⟩
        · exact ⟨place + 1, hplace, Nat.zero_le _⟩
      · rintro ⟨place, hplace, -⟩
        cases place with
        | zero => exact .inl (Option.some.inj hplace).symm
        | succ place => exact .inr ⟨place, hplace, Nat.zero_le _⟩
    | cons value values =>
      rw [valued.pair, List.mem_cons, ih, Prod.mk.injEq]
      constructor
      · rintro (⟨-, hnone⟩ | ⟨place, hplace, hle⟩)
        · cases hnone
        · exact ⟨place + 1, hplace, Nat.succ_le_succ hle⟩
      · rintro ⟨place, hplace, hle⟩
        cases place with
        | zero => exact absurd hle (Nat.not_succ_le_zero _)
        | succ place => exact .inr ⟨place, hplace, Nat.le_of_succ_le_succ hle⟩

variable [Scalar κ] {values : Option (List κ)}

theorem map_fst_valued (context : List Text) (values : Option (List κ)) :
    (valued context values).map Prod.fst = context := by
  cases values with
  | none => simp [valued, Function.comp_def]
  | some values => exact map_fst_pair context values

theorem mem_valued_none_iff {name : Text} :
    (name, none) ∈ valued context values ↔
      ∃ vs, values = some vs ∧ ∃ place, context[place]? = some name ∧ vs.length ≤ place := by
  cases values with
  | none => simp [valued]
  | some vs => simp [valued, mem_pair_none_iff]

end

namespace Model

variable {κ : Type}

/-- The model knows the predicate, and an outcome that it counts for. -/
def weighs (m : Model κ) (name : Text) : Bool :=
  (m.predicates.get? name).any fun p => !p.weights.isEmpty

def keptValues (m : Model κ) (context : List Text) (values : Option (List κ)) : Option (List κ) :=
  values.map fun vs => ((context.zip vs).filter fun q => m.weighs q.1).map Prod.snd

variable [Scalar κ] {m : Model κ} {name : Text}

theorem addScores_of_known {p : Predicate κ} (h : m.predicates.get? name = some p) (scores : List κ)
    (value : κ) : m.addScores scores (name, some value) = .ok (p.addTo value scores) := by
  rw [addScores, h]
  by_cases hempty : p.weights.isEmpty = true
  · have hweights : p.weights = [] := List.isEmpty_iff.1 hempty
    have hsame : p.addTo value scores = scores := by
      apply List.ext_getElem
      · simp [Predicate.addTo]
      · simp [Predicate.addTo, Predicate.weight?, hweights]
    rw [hsame]
    exact if_pos hempty
  · simp [hempty]

theorem addScores_of_unknown (h : m.predicates.get? name = none) (scores : List κ)
    (value : Option κ) : m.addScores scores (name, value) = .ok scores := by
  rw [addScores, h]

theorem addScores_of_weighs_eq_false (h : m.weighs name = false) (scores : List κ)
    (value : Option κ) : m.addScores scores (name, value) = .ok scores := by
  rw [addScores]
  cases hget : m.predicates.get? name with
  | none => rfl
  | some p =>
    rw [weighs, hget, Option.any_some, Bool.not_eq_false'] at h
    exact if_pos h

theorem exists_addScores (m : Model κ) (name : Text) (scores : List κ) (value : κ) :
    ∃ after, m.addScores scores (name, some value) = .ok after := by
  cases hget : m.predicates.get? name with
  | none => exact ⟨scores, addScores_of_unknown hget scores _⟩
  | some p => exact ⟨_, addScores_of_known hget scores value⟩

theorem addScores_none (h : m.weighs name = true) (scores : List κ) :
    m.addScores scores (name, none) = .error ⟨name⟩ := by
  rw [addScores]
  cases hget : m.predicates.get? name with
  | none =>
    rw [weighs, hget] at h
    cases h
  | some p =>
    rw [weighs, hget, Option.any_some, Bool.not_eq_true'] at h
    exact if_neg (Bool.not_eq_true _ ▸ h)

theorem length_of_addScores {before after : List κ} {feature : Text × Option κ}
    (h : m.addScores before feature = .ok after) : after.length = before.length := by
  rw [addScores] at h
  split at h
  · rw [← Except.ok.inj h]
  · split at h
    · rw [← Except.ok.inj h]
    · split at h
      · rw [← Except.ok.inj h, Predicate.addTo, List.length_mapIdx]
      · cases h

theorem length_of_scores {context : List Text} {values : Option (List κ)} {scores : List κ}
    (h : m.scores context values = .ok scores) : scores.length = m.labels.length := by
  have hall : ∀ (features : List (Text × Option κ)) (before after : List κ),
      features.foldlM m.addScores before = .ok after → after.length = before.length := by
    intro features
    induction features with
    | nil =>
      intro before after hafter
      rw [← Except.ok.inj hafter]
    | cons feature features ih =>
      intro before after hafter
      rw [List.foldlM_cons, Except.bind_eq_ok_iff] at hafter
      obtain ⟨next, hnext, hrest⟩ := hafter
      exact (ih next after hrest).trans (length_of_addScores hnext)
  rw [Model.scores] at h
  rw [hall _ _ _ h, List.length_map]

theorem length_of_probabilities {context : List Text} {values : Option (List κ)} {ps : List κ}
    (h : m.probabilities context values = .ok ps) : ps.length = m.labels.length := by
  obtain ⟨scores, hscores, rfl⟩ := Except.map_eq_ok h
  rw [Scalar.softmax, List.length_map, List.length_map, length_of_scores hscores]

variable (m) in
/-- Predicates without weights might as well not be there. -/
theorem foldlM_addScores_filter (features : List (Text × Option κ)) (scores : List κ) :
    (features.filter fun f => m.weighs f.1).foldlM m.addScores scores =
      features.foldlM m.addScores scores := by
  induction features generalizing scores with
  | nil => rfl
  | cons feature features ih =>
    obtain ⟨name, value⟩ := feature
    cases hweighs : m.weighs name with
    | false =>
      rw [List.filter_cons_of_neg (by simp [hweighs]), List.foldlM_cons,
        addScores_of_weighs_eq_false hweighs]
      exact ih scores
    | true =>
      rw [List.filter_cons_of_pos (by simpa using hweighs), List.foldlM_cons, List.foldlM_cons]
      exact congrArg (m.addScores scores (name, value) >>= ·) (funext ih)

variable (m) in
theorem foldlM_addScores_eq_error_iff (features : List (Text × Option κ)) (scores : List κ) :
    (∃ e, features.foldlM m.addScores scores = .error e) ↔
      ∃ name, (name, none) ∈ features ∧ m.weighs name = true := by
  induction features generalizing scores with
  | nil => simp [pure, Except.pure]
  | cons feature features ih =>
    obtain ⟨name, value⟩ := feature
    rw [List.foldlM_cons]
    cases value with
    | some value =>
      obtain ⟨after, hafter⟩ := m.exists_addScores name scores value
      rw [hafter]
      refine (ih after).trans (exists_congr fun other => ?_)
      simp
    | none =>
      cases hweighs : m.weighs name with
      | true =>
        rw [addScores_none hweighs]
        exact iff_of_true ⟨_, rfl⟩ ⟨name, List.mem_cons_self, hweighs⟩
      | false =>
        rw [addScores_of_weighs_eq_false hweighs]
        refine (ih scores).trans (exists_congr fun other => ?_)
        rw [List.mem_cons, Prod.mk.injEq]
        constructor
        · exact fun h => ⟨.inr h.1, h.2⟩
        · rintro ⟨⟨rfl, -⟩ | hmem, hother⟩
          · rw [hweighs] at hother
            cases hother
          · exact ⟨hmem, hother⟩

theorem foldlM_addScores_congr {n : Model κ} {features : List (Text × Option κ)}
    (h : ∀ f ∈ features, n.predicates.get? f.1 = m.predicates.get? f.1) (scores : List κ) :
    features.foldlM n.addScores scores = features.foldlM m.addScores scores := by
  induction features generalizing scores with
  | nil => rfl
  | cons feature features ih =>
    obtain ⟨hfirst, hrest⟩ := List.forall_mem_cons.1 h
    have hstep : n.addScores scores feature = m.addScores scores feature := by
      rw [addScores, addScores, hfirst]
    rw [List.foldlM_cons, List.foldlM_cons, hstep]
    exact congrArg (m.addScores scores feature >>= ·) (funext (ih hrest))

omit [Scalar κ] in
/-- Values stay beside their predicates when those without weights are left out. -/
theorem pair_filter {context : List Text} {values : List κ}
    (h : ∀ name, (name, none) ∈ valued.pair context values → m.weighs name = false) :
    valued.pair (context.filter m.weighs) (((context.zip values).filter fun q => m.weighs q.1).map Prod.snd) =
      (valued.pair context values).filter fun f => m.weighs f.1 := by
  induction context generalizing values with
  | nil => rfl
  | cons name context ih =>
    cases values with
    | nil =>
      have hweighs := h name (List.mem_cons_self)
      have hrest : valued.pair (context.filter m.weighs) (((context.zip []).filter _).map Prod.snd) = _ :=
        ih fun other hmem => h other (List.mem_cons_of_mem _ hmem)
      rw [List.zip_nil_right] at hrest
      rw [valued.pair, List.zip_nil_right, List.filter_cons_of_neg (by simp [hweighs]),
        List.filter_cons_of_neg (by simp [hweighs]), hrest]
    | cons value values =>
      have hkept : ∀ other, (other, none) ∈ valued.pair context values → m.weighs other = false :=
        fun other hmem => h other (List.mem_cons_of_mem _ hmem)
      have hrest := ih hkept
      rw [valued.pair, List.zip_cons_cons]
      cases hweighs : m.weighs name with
      | false =>
        rw [List.filter_cons_of_neg (by simp [hweighs]), List.filter_cons_of_neg (by simp [hweighs]),
          List.filter_cons_of_neg (by simp [hweighs]), hrest]
      | true =>
        rw [List.filter_cons_of_pos hweighs, List.filter_cons_of_pos (by simp [hweighs]),
          List.filter_cons_of_pos (by simp [hweighs]), List.map_cons, valued.pair, hrest]

theorem valued_filter {context : List Text} {values : Option (List κ)}
    (h : ∀ name, (name, none) ∈ valued context values → m.weighs name = false) :
    valued (context.filter m.weighs) (m.keptValues context values) =
      (valued context values).filter fun f => m.weighs f.1 := by
  cases values with
  | none => simp only [keptValues, valued, Option.map_none, List.filter_map]; rfl
  | some values => exact pair_filter h

/-- A predicate of the context that the model weighs stands where the values have ended. -/
def LacksValue (m : Model κ) (context : List Text) (values : Option (List κ)) : Prop :=
  ∃ vs, values = some vs ∧
    ∃ place name, context[place]? = some name ∧ vs.length ≤ place ∧ m.weighs name = true

theorem lacksValue_iff {m : Model κ} {context : List Text} {values : Option (List κ)} :
    m.LacksValue context values ↔
      ∃ name, (name, none) ∈ valued context values ∧ m.weighs name = true := by
  simp only [mem_valued_none_iff]
  constructor
  · rintro ⟨vs, hvalues, place, name, hname, hle, hweighs⟩
    exact ⟨name, ⟨vs, hvalues, place, hname, hle⟩, hweighs⟩
  · rintro ⟨name, ⟨vs, hvalues, place, hname, hle⟩, hweighs⟩
    exact ⟨vs, hvalues, place, name, hname, hle, hweighs⟩

theorem probabilities_eq_error_iff {m : Model κ} {context : List Text} {values : Option (List κ)} :
    (∃ e, m.probabilities context values = .error e) ↔ m.LacksValue context values := by
  rw [lacksValue_iff, ← foldlM_addScores_eq_error_iff m _ (m.labels.map fun _ => 0)]
  rw [probabilities, scores]
  cases (valued context values).foldlM m.addScores (m.labels.map fun _ => 0) with
  | error e => exact iff_of_true ⟨e, rfl⟩ ⟨e, rfl⟩
  | ok scores => exact iff_of_false nofun nofun

theorem exists_probabilities {m : Model κ} {context : List Text} {values : Option (List κ)}
    (h : ¬m.LacksValue context values) : ∃ ps, m.probabilities context values = .ok ps := by
  cases hps : m.probabilities context values with
  | error e => exact absurd (probabilities_eq_error_iff.1 ⟨e, hps⟩) h
  | ok ps => exact ⟨ps, rfl⟩

theorem probabilities_kept {m : Model κ} {context : List Text} {values : Option (List κ)}
    (h : ¬m.LacksValue context values) :
    m.probabilities (context.filter m.weighs) (m.keptValues context values) =
      m.probabilities context values := by
  have hkept : ∀ name, (name, none) ∈ valued context values → m.weighs name = false := by
    intro name hmem
    rw [← Bool.not_eq_true]
    exact fun hweighs => h (lacksValue_iff.2 ⟨name, hmem, hweighs⟩)
  rw [probabilities, scores, valued_filter hkept, foldlM_addScores_filter]
  rfl

theorem probabilities_congr {m n : Model κ} {context : List Text} (hlabels : n.labels = m.labels)
    (h : ∀ name ∈ context, n.predicates.get? name = m.predicates.get? name)
    (values : Option (List κ)) : n.probabilities context values = m.probabilities context values := by
  have hfeatures : ∀ f ∈ valued context values, n.predicates.get? f.1 = m.predicates.get? f.1 := by
    intro f hf
    apply h
    rw [← map_fst_valued context values]
    exact List.mem_map_of_mem hf
  rw [probabilities, probabilities, scores, scores, foldlM_addScores_congr hfeatures, hlabels]

end Model

end MaxEnt
