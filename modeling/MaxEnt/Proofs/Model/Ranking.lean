import Mathlib
import MaxEnt.Proofs.Model.Best

namespace MaxEnt

/-- No predicate of the context is without a value. -/
def Enough {κ : Type} (context : List Text) (values : Option (List κ)) : Prop :=
  ∀ vs, values = some vs → context.length ≤ vs.length

theorem pair_eq_zip {κ : Type} {context : List Text} {values : List κ}
    (h : context.length ≤ values.length) :
    valued.pair context values = (context.zip values).map fun q => (q.1, some q.2) := by
  induction context generalizing values with
  | nil => rfl
  | cons name context ih =>
    cases values with
    | nil => exact absurd h (Nat.not_succ_le_zero _)
    | cons value values =>
      rw [valued.pair, ih (Nat.le_of_succ_le_succ h), List.zip_cons_cons, List.map_cons]

section

variable {κ : Type} [Scalar κ]

def withValues (context : List Text) : Option (List κ) → List (Text × κ)
  | none => context.map fun name => (name, 1)
  | some values => context.zip values

theorem valued_eq {context : List Text} {values : Option (List κ)} (h : Enough context values) :
    valued context values = (withValues context values).map fun q => (q.1, some q.2) := by
  cases values with
  | none => simp [valued, withValues, Function.comp_def]
  | some values => exact pair_eq_zip (h values rfl)

theorem withValues_ones (context : List Text) :
    withValues context (some (List.replicate context.length (1 : κ))) = withValues context none := by
  apply List.ext_getElem
  · simp [withValues]
  · simp [withValues]

theorem withValues_append {context : List Text} {values : List κ}
    (h : context.length ≤ values.length) (more : List κ) :
    withValues context (some (values ++ more)) = withValues context (some values) := by
  have hlength : (context.zip (values ++ more)).length = (context.zip values).length := by
    simp only [List.length_zip, List.length_append]
    omega
  apply List.ext_getElem hlength
  intro place hplace hplace'
  have hlt : place < values.length := by
    rw [List.length_zip] at hplace'
    omega
  simp only [List.getElem_zip, List.getElem_append_left hlt]

end

namespace Predicate

variable {κ : Type}

def listed (p : Predicate κ) (outcome : Int) : List κ :=
  (p.weights.filter fun w => w.1 = outcome).map Prod.snd

theorem weight?_eq_getLast? (p : Predicate κ) (outcome : Int) :
    p.weight? outcome = (p.listed outcome).getLast? := by
  have hfirst : ∀ ws : List (Int × κ),
      ws.lookup outcome = ((ws.filter fun w => w.1 = outcome).map Prod.snd).head? := by
    intro ws
    induction ws with
    | nil => rfl
    | cons w ws ih =>
      obtain ⟨o, x⟩ := w
      by_cases ho : o = outcome
      · simp [ho]
      · have hb : (outcome == o) = false := beq_false_of_ne (Ne.symm ho)
        simp [List.lookup_cons, ho, hb, ih]
  rw [weight?, hfirst, listed, List.filter_reverse, List.map_reverse, List.head?_reverse]

end Predicate

namespace Model

section

variable {κ : Type} [ExactScalar κ] (m : Model κ)

/-- The last weight that is listed for a predicate and an outcome; zero where there is none. -/
def weightOf (name : Text) (outcome : Nat) : κ :=
  match m.predicates.get? name with
  | some p => (p.listed outcome).getLast?.getD 0
  | none => 0

def score (pairs : List (Text × κ)) (outcome : Nat) : κ :=
  (pairs.map fun q => q.2 * m.weightOf q.1 outcome).sum

theorem score_cons (q : Text × κ) (pairs : List (Text × κ)) (outcome : Nat) :
    m.score (q :: pairs) outcome = q.2 * m.weightOf q.1 outcome + m.score pairs outcome := by
  rw [score, List.map_cons, List.sum_cons, score]

theorem score_perm {pairs pairs' : List (Text × κ)} (h : pairs.Perm pairs') :
    m.score pairs = m.score pairs' :=
  funext fun _ => (h.map _).sum_eq

theorem addScores_range (outcomes : Nat) (scores : Nat → κ) (q : Text × κ) :
    m.addScores ((List.range outcomes).map scores) (q.1, some q.2) =
      .ok ((List.range outcomes).map fun o => scores o + q.2 * m.weightOf q.1 o) := by
  cases hget : m.predicates.get? q.1 with
  | none =>
    rw [addScores_of_unknown hget]
    simp [weightOf, hget]
  | some p =>
    rw [addScores_of_known hget]
    congr 1
    apply List.ext_getElem
    · simp [Predicate.addTo]
    · intro o ho _
      simp only [Predicate.addTo, List.getElem_mapIdx, List.getElem_map, List.getElem_range, weightOf,
        hget, Predicate.weight?_eq_getLast?]
      cases (p.listed o).getLast? with
      | none => simp
      | some w => simp [mul_comm]

theorem foldlM_addScores_range (outcomes : Nat) (pairs : List (Text × κ)) (scores : Nat → κ) :
    (pairs.map fun q => (q.1, some q.2)).foldlM m.addScores ((List.range outcomes).map scores) =
      .ok ((List.range outcomes).map fun o => scores o + m.score pairs o) := by
  induction pairs generalizing scores with
  | nil => simp [score, pure, Except.pure]
  | cons q pairs ih =>
    rw [List.map_cons, List.foldlM_cons, addScores_range]
    refine (ih _).trans ?_
    simp only [score_cons, add_assoc]

theorem scores_eq {context : List Text} {values : Option (List κ)} {pairs : List (Text × κ)}
    (h : valued context values = pairs.map fun q => (q.1, some q.2)) :
    m.scores context values = .ok ((List.range m.labels.length).map (m.score pairs)) := by
  have hzeros : (m.labels.map fun _ => (0 : κ)) = (List.range m.labels.length).map fun _ => 0 := by
    simp [List.map_const']
  rw [scores, h, hzeros, foldlM_addScores_range]
  simp only [zero_add]

theorem probabilities_eq {context : List Text} {values : Option (List κ)} {pairs : List (Text × κ)}
    (h : valued context values = pairs.map fun q => (q.1, some q.2)) :
    m.probabilities context values =
      .ok (Scalar.softmax ((List.range m.labels.length).map (m.score pairs))) := by
  rw [probabilities, scores_eq m h]
  rfl

end

end Model

section

variable {κ : Type} [LinearOrder κ] [OrderedScalar κ]

namespace Scalar

theorem div_le_div_iff {x y whole : κ} (h : 0 < whole) : x / whole ≤ y / whole ↔ x ≤ y := by
  rw [← mul_le_mul_iff_left₀ h, OrderedScalar.div_mul_cancel x h.ne',
    OrderedScalar.div_mul_cancel y h.ne']

theorem div_pos_iff {x whole : κ} (h : 0 < whole) : 0 < x / whole ↔ 0 < x := by
  rw [← mul_pos_iff_of_pos_right h, OrderedScalar.div_mul_cancel x h.ne']

theorem sum_map_div {whole : κ} (h : whole ≠ 0) (xs : List κ) :
    (xs.map (· / whole)).sum * whole = xs.sum := by
  rw [← List.sum_map_mul_right]
  simp only [OrderedScalar.div_mul_cancel _ h, List.map_id']

end Scalar

/-- Positive probabilities of outcomes that add up to one and are ordered as the outcomes' scores. -/
structure RankedBy (score : Nat → κ) (outcomes : Nat) (ps : List κ) : Prop where
  length : ps.length = outcomes
  pos : ∀ p ∈ ps, 0 < p
  sum : ps.sum = 1
  le_iff : ∀ {o o' : Nat} {p p' : κ}, ps[o]? = some p → ps[o']? = some p' →
    (p ≤ p' ↔ score o ≤ score o')

variable {score : Nat → κ} {outcomes : Nat}

theorem rankedBy_softmax (hexp : ∀ x : κ, 0 < Scalar.exp x) (hmono : StrictMono (Scalar.exp : κ → κ))
    (hone : Scalar.exp (0 : κ) = 1) (score : Nat → κ) (h : 0 < outcomes) :
    RankedBy score outcomes (Scalar.softmax ((List.range outcomes).map score)) := by
  have hne : (List.range outcomes).map score ≠ [] := by
    rw [ne_eq, List.map_eq_nil_iff, List.range_eq_nil]
    exact h.ne'
  have hwhole : 0 < Scalar.whole ((List.range outcomes).map score) :=
    zero_lt_one.trans_le (Scalar.one_le_whole hexp hone hne)
  have hget : ∀ {o : Nat} {p : κ}, (Scalar.softmax ((List.range outcomes).map score))[o]? = some p →
      p = Scalar.exp (score o - Scalar.greatest ((List.range outcomes).map score)) /
        Scalar.whole ((List.range outcomes).map score) := by
    intro o p hp
    rw [Scalar.softmax_eq, Scalar.shares, List.getElem?_map, List.getElem?_map, List.getElem?_map] at hp
    obtain ⟨share, hshare, rfl⟩ := Option.map_eq_some_iff.1 hp
    obtain ⟨s, hs, rfl⟩ := Option.map_eq_some_iff.1 hshare
    obtain ⟨o', ho', rfl⟩ := Option.map_eq_some_iff.1 hs
    rw [← (List.getElem?_eq_some_iff.1 ho').2, List.getElem_range]
  refine ⟨by simp [Scalar.softmax], ?_, ?_, ?_⟩
  · intro p hp
    obtain ⟨o, ho⟩ := List.mem_iff_getElem?.1 hp
    rw [hget ho, Scalar.div_pos_iff hwhole]
    exact hexp _
  · apply mul_right_cancel₀ hwhole.ne'
    rw [Scalar.softmax_eq, Scalar.sum_map_div hwhole.ne', one_mul, Scalar.whole, Scalar.sum_eq_sum]
  · intro o o' p p' hp hp'
    rw [hget hp, hget hp', Scalar.div_le_div_iff hwhole, hmono.le_iff_le, sub_le_sub_iff_right]

theorem RankedBy.best {m : Model κ} {ps : List κ} (h : RankedBy score m.labels.length ps) :
    ∃ place label, m.labels[place]? = some label ∧ m.best ps = .ok label ∧
      (∀ o < m.labels.length, score o ≤ score place) ∧ ∀ o < place, score o < score place := by
  obtain ⟨place, p, label, hfirst, hlabel, hbest⟩ := Model.best_eq h.length
  refine ⟨place, label, hlabel, hbest, ?_, ?_⟩
  · intro o ho
    have hget := List.getElem?_eq_getElem (h.length ▸ ho)
    exact (h.le_iff hget hfirst.getElem?).1 (hfirst.le _ (List.mem_of_getElem? hget))
  · intro o ho
    have hlt : o < ps.length := ho.trans hfirst.lt_length
    have hget := List.getElem?_eq_getElem hlt
    have htake : ps[o] ∈ ps.take place := List.mem_take_iff_getElem.2 ⟨o, Nat.lt_min.2 ⟨ho, hlt⟩, rfl⟩
    rw [← not_le, ← h.le_iff hfirst.getElem? hget, not_le]
    exact hfirst.lt _ htake

namespace Model

theorem one_le_whole (hexp : ∀ x : κ, 0 < Scalar.exp x) (hone : Scalar.exp (0 : κ) = 1) (m : Model κ)
    {context : List Text} {values : Option (List κ)} {scores : List κ}
    (h : m.scores context values = .ok scores) : 1 ≤ Scalar.whole scores :=
  Scalar.one_le_whole hexp hone (ne_nil_of_length (length_of_scores h))

/-- The probabilities of a context are a distribution in the order of the outcomes' scores. The best
outcome is the first of the greatest score, and only which predicates stand beside which values
matters. -/
theorem probabilities_ranked (hexp : ∀ x : κ, 0 < Scalar.exp x)
    (hmono : StrictMono (Scalar.exp : κ → κ)) (hone : Scalar.exp (0 : κ) = 1) (m : Model κ)
    (context : List Text) (values : Option (List κ)) (hvalues : Enough context values) :
    ∃ scores ps, m.scores context values = .ok scores ∧ 1 ≤ Scalar.whole scores ∧
      ps = (Scalar.shares scores).map (· / Scalar.whole scores) ∧
      m.probabilities context values = .ok ps ∧
      RankedBy (m.score (withValues context values)) m.labels.length ps ∧
      (∃ place label, m.labels[place]? = some label ∧ m.best ps = .ok label ∧
        (∀ o < m.labels.length,
          m.score (withValues context values) o ≤ m.score (withValues context values) place) ∧
        ∀ o < place,
          m.score (withValues context values) o < m.score (withValues context values) place) ∧
      (∀ (context' : List Text) (values' : Option (List κ)), Enough context' values' →
        (withValues context' values').Perm (withValues context values) →
        m.probabilities context' values' = .ok ps) ∧
      (values = none →
        m.probabilities context (some (List.replicate context.length 1)) = .ok ps) ∧
      ∀ vs more, values = some vs → m.probabilities context (some (vs ++ more)) = .ok ps := by
  have hscores := scores_eq m (valued_eq hvalues)
  have hps := probabilities_eq m (valued_eq hvalues)
  have hranked := rankedBy_softmax hexp hmono hone (m.score (withValues context values))
    (Nat.zero_lt_of_lt m.two_le)
  have hsame : ∀ (context' : List Text) (values' : Option (List κ)), Enough context' values' →
      (withValues context' values').Perm (withValues context values) →
      m.probabilities context' values' = m.probabilities context values := by
    intro context' values' hvalues' hperm
    rw [probabilities_eq m (valued_eq hvalues'), hps, score_perm m hperm]
  refine ⟨_, _, hscores, m.one_le_whole hexp hone hscores, rfl, hps, hranked, hranked.best, ?_, ?_, ?_⟩
  · exact fun context' values' hvalues' hperm => (hsame context' values' hvalues' hperm).trans hps
  · rintro rfl
    refine (hsame _ _ ?_ (.of_eq (withValues_ones context))).trans hps
    intro vs hvs
    rw [← Option.some.inj hvs, List.length_replicate]
  · rintro vs more rfl
    have hle := hvalues vs rfl
    refine (hsame _ _ ?_ (.of_eq (withValues_append hle more))).trans hps
    intro vs' hvs'
    rw [← Option.some.inj hvs', List.length_append]
    omega

noncomputable def repeatedWeights : Model ℝ where
  labels := [↑ "A", ↑ "B"]
  predicates := .ofList [(↑ "x", ⟨[(0, 1), (1, 2), (0, 3)]⟩), (↑ "y", ⟨[(1, 5)]⟩), (↑ "z", ⟨[]⟩)]
  two_le := by decide
  labels_nodup := by decide
  inRange := by decide

theorem weightOf_repeatedWeights : letI : OrderedScalar ℝ := .real Real.exp Real.log
    repeatedWeights.weightOf ↑ "x" 0 = 3 ∧ repeatedWeights.weightOf ↑ "x" 1 = 2 ∧
      repeatedWeights.weightOf ↑ "y" 0 = 0 ∧ repeatedWeights.weightOf ↑ "y" 1 = 5 ∧
      ∀ o, repeatedWeights.weightOf ↑ "new" o = 0 := by
  let _ : OrderedScalar ℝ := .real Real.exp Real.log
  have hx : repeatedWeights.predicates.get? ↑ "x" = some ⟨[(0, 1), (1, 2), (0, 3)]⟩ := rfl
  have hy : repeatedWeights.predicates.get? ↑ "y" = some ⟨[(1, 5)]⟩ := rfl
  have hnew : repeatedWeights.predicates.get? ↑ "new" = none := rfl
  refine ⟨?_, ?_, ?_, ?_, fun o => ?_⟩
  · rw [weightOf, hx]
    simp [Predicate.listed]
  · rw [weightOf, hx]
    simp [Predicate.listed]
  · rw [weightOf, hy]
    simp [Predicate.listed]
  · rw [weightOf, hy]
    simp [Predicate.listed]
  · rw [weightOf, hnew]

/-- A context with a predicate twice, one that is not known, and values to spare. -/
theorem probabilities_ranked_repeatedWeights :
    letI : OrderedScalar ℝ := .real Real.exp Real.log
    (∀ x : ℝ, 0 < Real.exp x) ∧ StrictMono Real.exp ∧ Real.exp 0 = 1 ∧
      Enough [↑ "x", ↑ "new", ↑ "x", ↑ "y"] (some [(2 : ℝ), 7, 1, -1, 9]) ∧
      ∃ ps, repeatedWeights.probabilities [↑ "x", ↑ "new", ↑ "x", ↑ "y"]
          (some [(2 : ℝ), 7, 1, -1, 9]) = .ok ps ∧
        (∀ p ∈ ps, 0 < p) ∧ ps.sum = 1 ∧ repeatedWeights.best ps = .ok ↑ "A" ∧
        repeatedWeights.probabilities [↑ "y", ↑ "x", ↑ "new", ↑ "x"] (some [(-1 : ℝ), 1, 7, 2]) = .ok ps := by
  let _ : OrderedScalar ℝ := .real Real.exp Real.log
  have henough : Enough [↑ "x", ↑ "new", ↑ "x", ↑ "y"] (some [(2 : ℝ), 7, 1, -1, 9]) := by
    rintro vs ⟨⟩
    decide
  obtain ⟨-, ps, -, -, -, hps, hranked, ⟨place, label, hlabel, hbest, hgreatest, -⟩, hperm, -, -⟩ :=
    repeatedWeights.probabilities_ranked Real.exp_pos Real.exp_strictMono Real.exp_zero
      [↑ "x", ↑ "new", ↑ "x", ↑ "y"] _ henough
  refine ⟨Real.exp_pos, Real.exp_strictMono, Real.exp_zero, henough, ps, hps, hranked.pos,
    hranked.sum, ?_, hperm _ _ ?_ ?_⟩
  · -- The scores are 2 * 3 + 1 * 3 and 2 * 2 + 1 * 2 - 1 * 5.
    obtain ⟨hx, hx', hy, hy', hnew⟩ := weightOf_repeatedWeights
    have hle := hgreatest 0 (by decide)
    match place with
    | 0 =>
      rw [hbest]
      exact congrArg Except.ok (Option.some.inj hlabel).symm
    | 1 =>
      simp only [withValues, List.zip_cons_cons, score, List.map_cons, List.sum_cons, hx, hx', hy, hy',
        hnew] at hle
      norm_num at hle
    | place + 2 => cases hlabel
  · rintro vs ⟨⟩
    decide
  · exact List.reverse_perm (withValues [↑ "x", ↑ "new", ↑ "x", ↑ "y"] (some [(2 : ℝ), 7, 1, -1, 9]))

end Model

end

end MaxEnt
