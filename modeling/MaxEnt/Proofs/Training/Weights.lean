import MaxEnt.Proofs.Except
import MaxEnt.Proofs.Training.Examples

namespace MaxEnt

theorem Scalar.length_softmax {κ : Type} [Scalar κ] (scores : List κ) :
    (softmax scores).length = scores.length := by
  simp [softmax]

namespace Scaling

variable {κ : Type} [ExactScalar κ]

/-- The logarithms that are aimed at stand in a grid, and the examples have none but its predicates. -/
structure Shaped (s : Scaling κ) (predicates : Nat) (g : Nat → Nat → Option κ) : Prop where
  goals : s.goals = (List.range predicates).map fun p => (List.range s.outcomes).map (g p)
  places : ∀ e ∈ s.examples, ∀ f ∈ e.features, f.1 < predicates

/-- Pairs of which nothing is aimed at have no weight. -/
def Inactive (g : Nat → Nat → Option κ) (w : Nat → Nat → κ) : Prop :=
  ∀ p o, g p o = none → w p o = 0

variable {s : Scaling κ} {predicates : Nat} {g : Nat → Nat → Option κ} {w : Nat → Nat → κ}

theorem addAll_grid {outcomes : Nat} {features : List (Nat × κ)} (h : ∀ f ∈ features, f.1 < predicates)
    (sums : Nat → κ) :
    features.foldl (fun sums f => addMultiple f.2 ((grid predicates outcomes w).getD f.1 []) sums)
      ((List.range outcomes).map sums) =
      (List.range outcomes).map fun o => sums o + (features.map fun f => f.2 * w f.1 o).sum := by
  induction features generalizing sums with
  | nil => simp
  | cons f fs ih =>
    obtain ⟨hf, hfs⟩ := List.forall_mem_cons.1 h
    have hrow : (grid predicates outcomes w).getD f.1 [] = (List.range outcomes).map (w f.1) := by
      simp [grid, hf]
    have hadd : addMultiple f.2 ((List.range outcomes).map (w f.1)) ((List.range outcomes).map sums) =
        (List.range outcomes).map fun o => sums o + f.2 * w f.1 o := by
      simp [addMultiple, List.zipWith_map, List.zipWith_self]
    rw [List.foldl_cons, hrow, hadd, ih hfs]
    simp only [List.map_cons, List.sum_cons, add_assoc]

theorem exists_collect_eq_grid {outcomes : Nat} {rows : List (List (Nat × κ) × List κ)}
    (h : ∀ r ∈ rows, r.2.length = outcomes) :
    ∃ x, collect predicates outcomes rows = grid predicates outcomes x := by
  have hrow : ∀ r ∈ rows, (r.1, (List.range outcomes).map fun o => r.2.getD o 0) = r := by
    intro r hr
    have hlist : (List.range outcomes).map (fun o => r.2.getD o 0) = r.2 := by
      apply List.ext_getElem
      · simp [h r hr]
      · intro o _ ho
        simp [ho]
    rw [hlist]
  have hgrid := collect_eq_grid predicates outcomes (rows.map fun r => (r.1, fun o => r.2.getD o 0))
  simp only [List.map_map, Function.comp_def] at hgrid
  rw [List.map_congr_left hrow, List.map_id'] at hgrid
  exact ⟨_, hgrid⟩

namespace Shaped

theorem scores_grid (h : s.Shaped predicates g) (w : Nat → Nat → κ) {e : Example κ}
    (he : e ∈ s.examples) : s.scores (grid predicates s.outcomes w) e =
      (List.range s.outcomes).map fun o => (e.features.map fun f => f.2 * w f.1 o).sum := by
  have hzeros : (zeros s.outcomes : List κ) = (List.range s.outcomes).map fun _ => 0 := by
    simp [zeros, List.map_const']
  rw [scores, hzeros, addAll_grid (h.places e he)]
  simp only [zero_add]

theorem expected_grid (h : s.Shaped predicates g) (w : Nat → Nat → κ) :
    ∃ x, s.expected (s.probabilities (grid predicates s.outcomes w)) =
      grid predicates s.outcomes x := by
  have hgoals : s.goals.length = predicates := by simp [h.goals]
  rw [expected, hgoals]
  apply exists_collect_eq_grid
  rw [probabilities, List.zipWith_map_right, List.zipWith_self, List.forall_mem_map]
  intro e he
  rw [List.length_map, Scalar.length_softmax, h.scores_grid w he, List.length_map, List.length_range]

theorem improve_grid (h : s.Shaped predicates g) (hw : Inactive g w) :
    ∃ w', s.improve (s.probabilities (grid predicates s.outcomes w))
        (grid predicates s.outcomes w) = grid predicates s.outcomes w' ∧ Inactive g w' := by
  obtain ⟨x, hx⟩ := h.expected_grid w
  refine ⟨fun p o => improveWeight s.correction (g p o) (x p o) (w p o), ?_, ?_⟩
  · rw [improve, hx, h.goals]
    simp only [grid, List.zip_map', List.zipWith_map, List.zipWith_self, improveRow]
  · intro p o hg
    simp only [hg, improveWeight, hw p o hg]

/-- However many steps are taken, the weights stay in the grid, and without a goal they stay zero. -/
theorem run_grid (h : s.Shaped predicates g) (hw : Inactive g w) (threshold : κ) (left done : Nat)
    (previous : Option κ) :
    ∃ w', (s.run threshold left done previous (grid predicates s.outcomes w)).weights =
        grid predicates s.outcomes w' ∧ Inactive g w' := by
  induction left generalizing done previous w with
  | zero => exact ⟨w, rfl, hw⟩
  | succ left ih =>
    obtain ⟨w₁, hstep, hw₁⟩ := h.improve_grid hw
    rw [run]
    simp only [hstep]
    split
    · exact ⟨w₁, rfl, hw₁⟩
    · exact ih hw₁ (done + 1) _

theorem start_grid (h : s.Shaped predicates g) :
    s.start = grid predicates s.outcomes fun _ _ => 0 := by
  rw [start, h.goals]
  simp [grid, zeros, List.map_const', Function.comp_def]

end Shaped

theorem shaped_ofExamples (outcomes : Nat) (replacement : Option κ) {examples : List (Example κ)}
    {x : Nat → Nat → κ} (hx : observed predicates outcomes examples = grid predicates outcomes x)
    (h : ∀ e ∈ examples, ∀ f ∈ e.features, f.1 < predicates) :
    (ofExamples predicates outcomes replacement examples).Shaped predicates
      fun p o => goal replacement (x p o) := by
  refine ⟨?_, h⟩
  rw [ofExamples, hx]
  simp only [grid, List.map_map, Function.comp_def]

theorem exists_shaped_ofExamples (outcomes : Nat) (replacement : Option κ)
    {examples : List (Example κ)} (h : ∀ e ∈ examples, ∀ f ∈ e.features, f.1 < predicates) :
    ∃ g, (ofExamples predicates outcomes replacement examples).Shaped predicates g :=
  ⟨_, shaped_ofExamples outcomes replacement (observed_eq_grid examples) h⟩

theorem solve_ok {p : Plan} {x : EventIndex} {r : Result κ} (h : solve κ p x = .ok (s, r)) :
    ofIndex κ p x = .ok s ∧
      r = s.run (Scalar.ofBinary64 (p.threshold.getD .zero)) p.steps 0 none s.start := by
  rw [solve, Except.bind_eq_ok_iff] at h
  obtain ⟨s', hs, hrun⟩ := h
  cases hrun
  exact ⟨hs, rfl⟩

theorem Shaped.weights_of_solve (h : s.Shaped predicates g) {p : Plan} {x : EventIndex} {r : Result κ}
    (hsolve : solve κ p x = .ok (s, r)) :
    ∃ w, r.weights = grid predicates s.outcomes w ∧ Inactive g w := by
  rw [(solve_ok hsolve).2, h.start_grid]
  exact h.run_grid (w := fun _ _ => 0) (fun _ _ _ => rfl) _ _ _ _

theorem solve_grid {p : Plan} {x : EventIndex} {r : Result κ} (h : solve κ p x = .ok (s, r))
    (hplaces : ∀ e ∈ x.allExamples κ, ∀ f ∈ e.features, f.1 < x.predicates.length) :
    s.examples = x.allExamples κ ∧ s.outcomes = x.labels.length ∧ ∃ g w,
      s.Shaped x.predicates.length g ∧ r.weights = grid x.predicates.length s.outcomes w ∧
        Inactive g w := by
  obtain ⟨-, rfl⟩ := ofIndex_eq_ok_iff.1 (solve_ok h).1
  obtain ⟨g, hshaped⟩ := exists_shaped_ofExamples x.labels.length
    (p.replacement.map Scalar.ofBinary64) hplaces
  obtain ⟨w, hw⟩ := hshaped.weights_of_solve h
  exact ⟨rfl, rfl, g, w, hshaped, hw⟩

end Scaling

end MaxEnt
