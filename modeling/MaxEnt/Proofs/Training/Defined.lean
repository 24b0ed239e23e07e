import Mathlib
import MaxEnt.Proofs.Model.Ranking
import MaxEnt.Proofs.Training.Active
import MaxEnt.Proofs.Training.Checked
import MaxEnt.Training.Trainer

namespace MaxEnt

namespace Scaling

theorem Shaped.after_grid {κ : Type} [ExactScalar κ] {s : Scaling κ} {predicates : Nat}
    {g : Nat → Nat → Option κ} (h : s.Shaped predicates g) (k : Nat) :
    ∃ w, s.after k = grid predicates s.outcomes w ∧ Inactive g w := by
  induction k with
  | zero => exact ⟨_, h.start_grid, fun _ _ _ => rfl⟩
  | succ k ih =>
    obtain ⟨w, hw, hinactive⟩ := ih
    rw [after, hw]
    exact h.improve_grid hinactive

theorem ofIndex_shaped {κ : Type} [ExactScalar κ] {p : Plan} {x : EventIndex} {s : Scaling κ}
    (hs : ofIndex κ p x = .ok s) : s.outcomes = x.labels.length ∧
      s.correction = greatestMass (x.allExamples κ) ∧ ∃ g, s.Shaped x.predicates.length g := by
  obtain ⟨hcheck, rfl⟩ := ofIndex_eq_ok_iff.1 hs
  exact ⟨rfl, rfl, exists_shaped_ofExamples _ _ ((EventIndex.check_eq_ok_iff.1 hcheck).place_lt κ)⟩

/-- Where what replaces values that were not observed is not positive, a pair that no row has is left
with a goal that is undefined. -/
theorem exists_goal_undefined {κ : Type} [LinearOrder κ] [OrderedScalar κ] {most : Nat} {x : EventIndex}
    (h : x.OfEvents most) {p : Plan} {b : Binary64} (hreplacement : p.replacement = some b)
    (hfinite : b.isFinite = true) (hlt : Binary64.zero.lessThan b = false) {s : Scaling (Checked κ)}
    (hs : ofIndex (Checked κ) p x = .ok s) {place o : Nat} (hplace : place < x.predicates.length)
    (ho : o < x.labels.length) (hunseen : ∀ r ∈ x.seen, r.1.outcome = o → r.1.has place = false) :
    ∃ goals ∈ s.goals, some Checked.undefined ∈ goals := by
  let weights : Nat → Nat → κ := fun p o => Indexing.weigh (Row.share κ p o) x.seen
  obtain ⟨-, rfl⟩ := ofIndex_eq_ok_iff.1 hs
  have hobserved : x.observed (Checked κ) = checkedRows (grid x.predicates.length x.labels.length weights) := by
    rw [EventIndex.observed_checked h.isFinite_values, h.observed_eq_grid]
  have hrow : ((List.range x.labels.length).map (weights place)).map Checked.of ∈
      (x.observed (Checked κ)).toList := by
    rw [hobserved, checkedRows, Array.toList_map]
    exact List.mem_map_of_mem (List.mem_map_of_mem (List.mem_range.2 hplace))
  have hpair : Checked.of (weights place o) ∈
      ((List.range x.labels.length).map (weights place)).map Checked.of :=
    List.mem_map_of_mem (List.mem_map_of_mem (List.mem_range.2 ho))
  have hnone : weights place o ≤ 0 := by
    rw [← not_lt, h.observed_pos_iff]
    rintro ⟨r, hr, houtcome, hhas⟩
    rw [hunseen r hr houtcome] at hhas
    cases hhas
  have hnegative : (Scalar.ofBinary64 b : κ) ≤ 0 := by
    rw [← not_lt, Binary64.zero_lt_ofBinary64_iff hfinite, hlt]
    exact Bool.false_ne_true
  have hgoal : goal (p.replacement.map Scalar.ofBinary64) (Checked.of (weights place o)) =
      some Checked.undefined := by
    rw [hreplacement, Option.map_some, Checked.ofBinary64_of hfinite]
    exact goal_undefined hnone hnegative
  rw [← hgoal]
  exact ⟨_, List.mem_map_of_mem hrow, List.mem_map_of_mem hpair⟩

theorem Shaped.one_le_whole {κ : Type} [LinearOrder κ] [OrderedScalar κ] {s : Scaling κ}
    {predicates : Nat} {g : Nat → Nat → Option κ} (h : s.Shaped predicates g)
    (hexp : ∀ x : κ, 0 < Scalar.exp x) (hone : Scalar.exp (0 : κ) = 1) (houtcomes : 0 < s.outcomes)
    (k : Nat) : ∀ e ∈ s.examples, 1 ≤ Scalar.whole (s.scores (s.after k) e) := by
  intro e he
  obtain ⟨w, hw, -⟩ := h.after_grid k
  apply Scalar.one_le_whole hexp hone
  rw [hw, h.scores_grid w he]
  simpa [List.range_eq_nil] using houtcomes.ne'

end Scaling

namespace Indexing

open Scaling

/-- Where what replaces values that were not observed is positive, training takes logarithms of
positive numbers only and divides by positive numbers only: it gives the same in arithmetic that knows
no others. The correction is positive, and the denominators of probabilities are no less than one,
while training and of the model that is trained. -/
theorem steps_defined {κ : Type} [LinearOrder κ] [OrderedScalar κ]
    (hexp : ∀ x : κ, 0 < Scalar.exp x) (hone : Scalar.exp (0 : κ) = 1) {settings : IndexSettings}
    {events : List Event} {i : Indexing} (hfinite : FiniteValues settings.indexer events)
    (hi : ofEvents settings events = .ok i) (htwo : 2 ≤ i.index.labels.length) {p : Plan}
    (hreplacement : ∀ b, p.replacement = some b → b.isFinite = true ∧ Binary64.zero.lessThan b = true)
    {s : Scaling κ} (hs : ofIndex κ p i.index = .ok s) :
    ofIndex (Checked κ) p i.index = .ok s.checked ∧ 0 < s.correction ∧
      (∀ k, s.checked.after k = checkedRows (s.after k) ∧
        s.checked.likelihoodAt k = Checked.of (s.likelihoodAt k) ∧
        ∀ e ∈ s.examples, 1 ≤ Scalar.whole (s.scores (s.after k) e)) ∧
      ∀ (m : Model κ) (r : Result κ), Scaling.train κ p i.index = .ok (m, r) →
        ∀ (context : List Text) (values : Option (List κ)) (scores : List κ),
          m.scores context values = .ok scores → 1 ≤ Scalar.whole scores := by
  obtain ⟨houtcomes, hcorrection, g, hshaped⟩ := ofIndex_shaped hs
  have hpositive : 0 < s.correction := hcorrection ▸ greatestMass_pos _
  refine ⟨ofIndex_checked (ofEvents_index hfinite hi).isFinite_values hreplacement hs, hpositive, ?_, ?_⟩
  · intro k
    exact ⟨after_checked hexp hone hpositive k, likelihoodAt_checked hexp hone hpositive k,
      hshaped.one_le_whole hexp hone (by omega) k⟩
  · intro m _ _ context values scores hscores
    exact m.one_le_whole hexp hone hscores

def partedEvents : List Event := [⟨"A", .plain ["x"]⟩, ⟨"B", .plain ["y"]⟩]

theorem index_partedEvents : (build ⟨.onePass, 1, true⟩ partedEvents partedEvents).index =
    .ofRows [(⟨0, [0], none⟩, 1), (⟨1, [1], none⟩, 1)] false [(↑ "x", 1), (↑ "y", 1)]
      [↑ "A", ↑ "B"] := by
  cbv

theorem finiteValues_partedEvents : FiniteValues .onePass partedEvents := by
  intro hkeeps
  cases hkeeps

theorem exists_ofIndex_partedEvents (κ : Type) [Scalar κ] (p : Plan) : ∃ s : Scaling κ,
    ofIndex κ p (build ⟨.onePass, 1, true⟩ partedEvents partedEvents).index = .ok s := by
  refine ⟨_, ofIndex_eq_ok_iff.2 ⟨?_, rfl⟩⟩
  rw [index_partedEvents]
  decide

theorem steps_defined_partedEvents :
    letI : OrderedScalar ℝ := .real Real.exp Real.log
    FiniteValues .onePass partedEvents ∧ ∃ i s,
      ofEvents ⟨.onePass, 1, true⟩ partedEvents = .ok i ∧
      ofIndex ℝ ⟨9, some .one, some .zero⟩ i.index = .ok s ∧
      ofIndex (Checked ℝ) ⟨9, some .one, some .zero⟩ i.index = .ok s.checked ∧ 0 < s.correction ∧
      ∀ k, s.checked.likelihoodAt k = Checked.of (s.likelihoodAt k) := by
  let _ : OrderedScalar ℝ := .real Real.exp Real.log
  have hi : ofEvents ⟨.onePass, 1, true⟩ partedEvents =
      .ok (build ⟨.onePass, 1, true⟩ partedEvents partedEvents) := rfl
  obtain ⟨s, hs⟩ := exists_ofIndex_partedEvents ℝ ⟨9, some .one, some .zero⟩
  have hreplacement : ∀ b, some Binary64.one = some b →
      b.isFinite = true ∧ Binary64.zero.lessThan b = true := by
    intro b hb
    obtain rfl := Option.some.inj hb
    decide
  obtain ⟨hchecked, hcorrection, hsteps, -⟩ := steps_defined (κ := ℝ) Real.exp_pos Real.exp_zero
    finiteValues_partedEvents hi (by rw [index_partedEvents]; decide) hreplacement hs
  exact ⟨finiteValues_partedEvents, _, s, hi, hs, hchecked, hcorrection, fun k => (hsteps k).2.1⟩

def negativeObservation : Parameters where
  iterations := .proper 1
  cutoff := .proper (some 1)
  smoothing := .proper true
  smoothingObservation := .proper ⟨0xBFF0000000000000⟩

/-- Nothing refuses these parameters, and training begins with the logarithm of a negative number. -/
theorem undefined_goal_negativeObservation :
    letI : OrderedScalar ℝ := .real Real.exp Real.log
    (∀ x : ℝ, 0 < Real.exp x) ∧ Real.exp 0 = 1 ∧
    ({ parameters := negativeObservation } : Trainer).validate negativeObservation = .ok () ∧
      FiniteValues .onePass partedEvents ∧ ∃ i p s,
        ofEvents ⟨.onePass, 1, true⟩ partedEvents = .ok i ∧ 2 ≤ i.index.labels.length ∧
        Plan.ofParameters negativeObservation = .ok p ∧ ofIndex (Checked ℝ) p i.index = .ok s ∧
        ∃ goals ∈ s.goals, some Checked.undefined ∈ goals := by
  let _ : OrderedScalar ℝ := .real Real.exp Real.log
  have hi : ofEvents ⟨.onePass, 1, true⟩ partedEvents =
      .ok (build ⟨.onePass, 1, true⟩ partedEvents partedEvents) := rfl
  obtain ⟨p, hp⟩ : ∃ p, Plan.ofParameters negativeObservation = .ok p := ⟨_, rfl⟩
  have hreplacement : p.replacement = some ⟨0xBFF0000000000000⟩ := by
    obtain rfl := Except.ok.inj hp
    rfl
  obtain ⟨s, hs⟩ := exists_ofIndex_partedEvents (Checked ℝ) p
  refine ⟨Real.exp_pos, Real.exp_zero, rfl, finiteValues_partedEvents, _, p, s, hi,
    by rw [index_partedEvents]; decide, hp, hs, ?_⟩
  -- The second outcome is not observed with the first predicate.
  have hunseen : ∀ r ∈ (build ⟨.onePass, 1, true⟩ partedEvents partedEvents).index.seen,
      r.1.outcome = 1 → r.1.has 0 = false := by
    rw [index_partedEvents]
    decide
  exact exists_goal_undefined (ofEvents_index finiteValues_partedEvents hi) hreplacement (by decide)
    (by decide) hs (by rw [index_partedEvents]; decide) (by rw [index_partedEvents]; decide) hunseen

end Indexing

end MaxEnt
