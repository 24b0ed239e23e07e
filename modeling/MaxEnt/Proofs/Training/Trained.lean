import MaxEnt.Proofs.Model.Checks
import MaxEnt.Proofs.Parameters.Typed
import MaxEnt.Training.Method

namespace MaxEnt

namespace Scaling

variable {κ : Type} [Scalar κ] {outcomes : Nat}

def Narrow (outcomes : Nat) (rows : Array (List κ)) : Prop :=
  ∀ (p : Nat) (row : List κ), rows[p]? = some row → row.length ≤ outcomes

theorem narrow_modify {rows : Array (List κ)} (h : Narrow outcomes rows) (f : Nat × κ)
    (row : List κ) : Narrow outcomes (rows.modify f.1 (addMultiple f.2 row)) := by
  intro p modified hp
  rw [Array.getElem?_modify] at hp
  split at hp
  · obtain ⟨before, hbefore, rfl⟩ := Option.map_eq_some_iff.1 hp
    rw [addMultiple, List.length_zipWith]
    exact Nat.le_trans (Nat.min_le_left _ _) (h p before hbefore)
  · exact h p modified hp

theorem narrow_foldl_modify {rows : Array (List κ)} (h : Narrow outcomes rows)
    (features : List (Nat × κ)) (row : List κ) : Narrow outcomes
      (features.foldl (fun rows f => rows.modify f.1 (addMultiple f.2 row)) rows) := by
  induction features generalizing rows with
  | nil => exact h
  | cons f features ih => exact ih (narrow_modify h f row)

theorem narrow_collect (predicates outcomes : Nat) (rows : List (List (Nat × κ) × List κ)) :
    Narrow outcomes (collect predicates outcomes rows) := by
  have hrows : ∀ sums : Array (List κ), Narrow outcomes sums → Narrow outcomes
      (rows.foldl (fun sums r =>
        r.1.foldl (fun sums f => sums.modify f.1 (addMultiple f.2 r.2)) sums) sums) := by
    induction rows with
    | nil => exact fun _ h => h
    | cons r rows ih => exact fun _ h => ih _ (narrow_foldl_modify h r.1 r.2)
  -- The rows to begin with are as long as there are outcomes.
  apply hrows
  intro p row hp
  rw [Array.getElem?_replicate] at hp
  split at hp
  · rw [← Option.some.inj hp]
    exact Nat.le_of_eq List.length_replicate
  · cases hp

theorem length_goals_le (predicates outcomes : Nat) (replacement : Option κ)
    (examples : List (Example κ)) :
    ∀ row ∈ (ofExamples predicates outcomes replacement examples).goals, row.length ≤ outcomes := by
  rw [ofExamples, List.forall_mem_map]
  intro row hrow
  obtain ⟨p, hp⟩ := List.getElem?_of_mem hrow
  rw [List.length_map]
  rw [Array.getElem?_toList, observed] at hp
  exact narrow_collect _ _ _ p row hp

omit [Scalar κ] in
theorem inRange_predicate (goals : List (Option κ)) (weights : List κ) :
    (predicate goals weights).InRange goals.length := by
  intro o ho
  obtain ⟨weight, hweight, rfl⟩ := List.mem_map.1 ho
  obtain ⟨⟨⟨g, w⟩, place⟩, hplace, hw⟩ := List.mem_filterMap.1 hweight
  obtain ⟨_, -, rfl⟩ := Option.map_eq_some_iff.1 hw
  have hlt := (List.mem_zipIdx hplace).2.1
  rw [List.length_zip] at hlt
  simp only
  omega

omit [Scalar κ] in
theorem length_outcomes_predicate (goals : List (Option κ)) (weights : List κ) :
    (predicate goals weights).outcomes.length ≤ goals.length := by
  have hkept : (predicate goals weights).weights.length ≤ (goals.zip weights).zipIdx.length :=
    List.length_filterMap_le _ _
  rw [List.length_zipIdx, List.length_zip] at hkept
  rw [Predicate.outcomes, List.length_map]
  omega

omit [Scalar κ] in
theorem mem_predicates {s : Scaling κ} {names : List Text} {weights : Array (List κ)}
    {e : Text × Predicate κ} (h : e ∈ s.predicates names weights) :
    e.1 ∈ names ∧ ∃ goals ∈ s.goals, e.2.InRange goals.length ∧
      e.2.outcomes.length ≤ goals.length := by
  obtain ⟨hname, hp⟩ := List.of_mem_zip h
  obtain ⟨⟨goals, row⟩, hzip, hpredicate⟩ := List.mem_map.1 hp
  refine ⟨hname, goals, (List.of_mem_zip hzip).1, ?_⟩
  rw [← hpredicate]
  exact ⟨inRange_predicate goals row, length_outcomes_predicate goals row⟩

theorem length_goals_of_solve {p : Plan} {x : EventIndex} {s : Scaling κ} {r : Result κ}
    (h : solve κ p x = .ok (s, r)) : ∀ goals ∈ s.goals, goals.length ≤ x.labels.length := by
  rw [solve, ofIndex] at h
  cases hexamples : x.examples κ with
  | error fault =>
    rw [hexamples] at h
    cases h
  | ok examples =>
    rw [hexamples] at h
    cases h
    exact length_goals_le _ _ _ _

theorem exists_model_of_solve {p : Plan} {x : EventIndex} {s : Scaling κ} {r : Result κ}
    (h : solve κ p x = .ok (s, r)) (htwo : 2 ≤ x.labels.length) (hnodup : x.labels.Nodup) :
    ∃ m, model x s r = .ok m := by
  refine ⟨_, Model.ofTable_eq_ok htwo hnodup ?_⟩
  intro q hq o ho
  obtain ⟨e, he, rfl⟩ := List.mem_map.1 hq
  obtain ⟨-, goals, hgoals, hrange, -⟩ := mem_predicates (Table.mem_of_mem_ofList he)
  have hlength := length_goals_of_solve h goals hgoals
  obtain ⟨hlow, hhigh⟩ := hrange o ho
  exact ⟨hlow, by omega⟩

theorem Plan.exists_ofParameters {ps : Parameters} (h : ps.Typed) :
    ∃ p threshold, ofParameters ps = .ok p ∧ p.threshold = some threshold := by
  obtain ⟨smoothing, hsmoothing⟩ := h.smoothing
  obtain ⟨observation, hobservation⟩ := h.smoothingObservation
  obtain ⟨iterations, hiterations⟩ := h.iterations
  obtain ⟨threshold, hthreshold⟩ := h.threshold
  have hreplacement : ∃ x, replacement? ps = .ok x := by
    rw [replacement?, hsmoothing, hobservation]
    cases smoothing <;> exact ⟨_, rfl⟩
  obtain ⟨x, hx⟩ := hreplacement
  rw [ofParameters, hx, steps?, hiterations, hthreshold]
  exact ⟨_, _, rfl, rfl⟩

end Scaling

namespace Method

variable {runs : Nat} {ps : Parameters} {x : EventIndex} {r : Trained}

def scalingReport (steps likelihood : Text) : List (Text × Json) :=
  [("Iterations", .string steps), ("LogLikelihood", .string likelihood)]

/-- What scaling gives tells of its steps, and is a model of the labels of the index with no
predicate that the index does not have. None lists more outcomes than there are labels. -/
structure ScaledOf (x : EventIndex) (r : Trained) : Prop where
  report : ∃ steps likelihood, r.report = .ofList (scalingReport steps likelihood)
  labels : r.model.labels = x.labels
  predicates : ∀ name ∈ r.model.predicates.keys, name ∈ x.predicates
  outcomes : ∀ p ∈ r.model.predicates.values, p.outcomes.length ≤ x.labels.length

theorem scaledOf_model {p : Scaling.Plan} {m : Model Float} {s : Scaling Float}
    {result : Scaling.Result Float} (hsolve : Scaling.solve Float p x = .ok (s, result))
    (h : Scaling.model x s result = .ok m) (steps : Nat) (likelihood : Binary64) :
    ScaledOf x ⟨m.map .ofFloat, (Scaling.report steps likelihood).map .string⟩ := by
  obtain ⟨hlabels, hpredicates⟩ := Model.ofTable_ok h
  have hentry : ∀ e ∈ m.predicates.entries,
      e.1 ∈ x.predicates ∧ e.2.outcomes.length ≤ x.labels.length := by
    intro e he
    rw [hpredicates] at he
    obtain ⟨hname, goals, hgoals, -, hlength⟩ :=
      Scaling.mem_predicates (Table.mem_of_mem_ofList he)
    exact ⟨hname, Nat.le_trans hlength (Scaling.length_goals_of_solve hsolve goals hgoals)⟩
  refine ⟨⟨_, _, rfl⟩, hlabels, ?_, ?_⟩
  · intro name hname
    obtain ⟨e, he, rfl⟩ := List.mem_map.1 hname
    obtain ⟨e', he', rfl⟩ := List.mem_map.1 he
    exact (hentry e' he').1
  · intro q hq
    obtain ⟨e, he, rfl⟩ := List.mem_map.1 hq
    obtain ⟨e', he', rfl⟩ := List.mem_map.1 he
    rw [Predicate.outcomes_map]
    exact (hentry e' he').2

theorem scaledOf_trainFloat {p : Scaling.Plan} (h : (Scaling.trainFloat p x).1 = .ok r) :
    ScaledOf x r := by
  rw [Scaling.trainFloat] at h
  split at h
  · cases h
  · rename_i s result hsolve
    simp only at h
    split at h
    · cases h
    · cases hm : Scaling.model x s result with
      | error e =>
        rw [hm] at h
        cases h
      | ok m =>
        rw [hm] at h
        cases h
        exact scaledOf_model hsolve hm _ _

theorem scaledOf_train (h : (scaling.train runs ps x).1 = .ok r) : ScaledOf x r := by
  simp only [scaling] at h
  split at h
  · cases h
  · cases h
  · exact scaledOf_trainFloat h

theorem exists_train (htyped : ps.Typed) (hcheck : x.check = .ok ()) (htwo : 2 ≤ x.labels.length)
    (hnodup : x.labels.Nodup) : ∃ r, (scaling.train runs ps x).1 = .ok r := by
  obtain ⟨p, threshold, hplan, hthreshold⟩ := Scaling.Plan.exists_ofParameters htyped
  obtain ⟨s, result, hsolve⟩ : ∃ s result, Scaling.solve Float p x = .ok (s, result) := by
    rw [Scaling.solve, Scaling.ofIndex, EventIndex.examples, hcheck]
    exact ⟨_, _, rfl⟩
  obtain ⟨m, hm⟩ := Scaling.exists_model_of_solve hsolve htwo hnodup
  simp only [scaling, hcheck, hplan, Scaling.trainFloat, hsolve, hthreshold, hm]
  exact ⟨_, rfl⟩

end Method

end MaxEnt
