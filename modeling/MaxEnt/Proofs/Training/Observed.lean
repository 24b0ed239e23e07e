import Mathlib.Algebra.BigOperators.Group.List.Basic
import Mathlib.Tactic.Ring
import MaxEnt.Proofs.Training.Exact
import MaxEnt.Training.Scaling

namespace MaxEnt

variable {κ : Type} [ExactScalar κ]

namespace Example

def amount (p : Nat) (features : List (Nat × κ)) : κ :=
  (features.map fun f => if f.1 = p then f.2 else 0).sum

theorem amount_cons (p : Nat) (f : Nat × κ) (features : List (Nat × κ)) :
    amount p (f :: features) = (if f.1 = p then f.2 else 0) + amount p features := by
  rw [amount, List.map_cons, List.sum_cons]
  rfl

theorem sum_addFeature (c : Nat → κ) (features : List (Nat × κ)) (f : Nat × κ) :
    ((addFeature features f).map fun f => f.2 * c f.1).sum =
      (features.map fun f => f.2 * c f.1).sum + f.2 * c f.1 := by
  induction features with
  | nil => simp [addFeature]
  | cons g gs ih =>
    rw [addFeature]
    by_cases hg : g.1 = f.1
    · rw [if_pos hg, List.map_cons, List.map_cons, List.sum_cons, List.sum_cons, hg]
      ring
    · rw [if_neg hg, List.map_cons, List.map_cons, List.sum_cons, List.sum_cons, ih, add_assoc]

theorem sum_combine (c : Nat → κ) (features : List (Nat × κ)) :
    ((combine features).map fun f => f.2 * c f.1).sum =
      (features.map fun f => f.2 * c f.1).sum := by
  have hfold : ∀ done : List (Nat × κ),
      ((features.foldl addFeature done).map fun f => f.2 * c f.1).sum =
        (done.map fun f => f.2 * c f.1).sum + (features.map fun f => f.2 * c f.1).sum := by
    induction features with
    | nil => simp
    | cons f fs ih =>
      intro done
      rw [List.foldl_cons, ih, sum_addFeature, List.map_cons, List.sum_cons, add_assoc]
  rw [combine, hfold]
  simp

theorem amount_combine (p : Nat) (features : List (Nat × κ)) :
    amount p (combine features) = amount p features := by
  have hamount : ∀ fs : List (Nat × κ),
      amount p fs = (fs.map fun f => f.2 * if f.1 = p then 1 else 0).sum := by
    intro fs
    simp only [amount, mul_ite, mul_one, mul_zero]
  rw [hamount, hamount]
  exact sum_combine (fun q => if q = p then 1 else 0) features

omit [ExactScalar κ] in
theorem forall_mem_addFeature [Scalar κ] {P : Nat → Prop} {features : List (Nat × κ)} {f : Nat × κ}
    (h : ∀ g ∈ features, P g.1) (hf : P f.1) : ∀ g ∈ addFeature features f, P g.1 := by
  induction features with
  | nil => simpa [addFeature] using hf
  | cons g gs ih =>
    obtain ⟨hg, hgs⟩ := List.forall_mem_cons.1 h
    rw [addFeature]
    split
    · exact List.forall_mem_cons.2 ⟨hg, hgs⟩
    · exact List.forall_mem_cons.2 ⟨hg, ih hgs⟩

omit [ExactScalar κ] in
theorem forall_mem_combine [Scalar κ] {P : Nat → Prop} {features : List (Nat × κ)}
    (h : ∀ f ∈ features, P f.1) : ∀ f ∈ combine features, P f.1 := by
  have hfold : ∀ done : List (Nat × κ), (∀ f ∈ done, P f.1) →
      ∀ f ∈ features.foldl addFeature done, P f.1 := by
    induction features with
    | nil => exact fun _ hdone => hdone
    | cons f fs ih =>
      obtain ⟨hf, hfs⟩ := List.forall_mem_cons.1 h
      exact fun done hdone => ih hfs _ (forall_mem_addFeature hdone hf)
  exact hfold [] (by simp)

end Example

namespace Scaling

open Example

def grid (predicates outcomes : Nat) (g : Nat → Nat → κ) : Array (List κ) :=
  ((List.range predicates).map fun p => (List.range outcomes).map (g p)).toArray

variable {predicates outcomes : Nat}

omit [ExactScalar κ] in
theorem grid_congr {g h : Nat → Nat → κ} (heq : ∀ p o, g p o = h p o) :
    grid predicates outcomes g = grid predicates outcomes h := by
  have : g = h := funext fun p => funext (heq p)
  rw [this]

theorem modify_grid (g : Nat → Nat → κ) (row : Nat → κ) (f : Nat × κ) :
    (grid predicates outcomes g).modify f.1 (addMultiple f.2 ((List.range outcomes).map row)) =
      grid predicates outcomes fun p o => g p o + (if f.1 = p then f.2 else 0) * row o := by
  apply Array.ext
  · simp [grid]
  · intro p hp hp'
    rw [Array.getElem_modify]
    by_cases h : f.1 = p
    · simp [grid, h, addMultiple, List.zipWith_map, List.zipWith_self]
    · simp [grid, h]

theorem modifyAll_grid (g : Nat → Nat → κ) (row : Nat → κ) (features : List (Nat × κ)) :
    features.foldl (fun sums f => sums.modify f.1 (addMultiple f.2 ((List.range outcomes).map row)))
      (grid predicates outcomes g) =
      grid predicates outcomes fun p o => g p o + amount p features * row o := by
  induction features generalizing g with
  | nil => simp [amount]
  | cons f fs ih =>
    rw [List.foldl_cons, modify_grid, ih]
    apply grid_congr
    intro p o
    rw [amount_cons]
    ring

def addRow (sums : Array (List κ)) (r : List (Nat × κ) × List κ) : Array (List κ) :=
  r.1.foldl (fun sums f => sums.modify f.1 (addMultiple f.2 r.2)) sums

theorem collect_eq_foldl (predicates outcomes : Nat) (rows : List (List (Nat × κ) × List κ)) :
    collect predicates outcomes rows =
      rows.foldl addRow (Array.replicate predicates (zeros outcomes)) := rfl

/-- Rows are collected by adding up, for each predicate, what their features hold of it. -/
theorem collect_eq_grid (predicates outcomes : Nat) (rows : List (List (Nat × κ) × (Nat → κ))) :
    collect predicates outcomes (rows.map fun r => (r.1, (List.range outcomes).map r.2)) =
      grid predicates outcomes fun p o => (rows.map fun r => amount p r.1 * r.2 o).sum := by
  have hzero : Array.replicate predicates (zeros outcomes) =
      grid predicates outcomes fun _ _ => (0 : κ) := by
    simp [grid, zeros, List.map_const']
  -- The fold goes on from what is added up so far, so the induction is over any grid.
  have hfold : ∀ g : Nat → Nat → κ,
      (rows.map fun r => (r.1, (List.range outcomes).map r.2)).foldl addRow
        (grid predicates outcomes g) =
      grid predicates outcomes fun p o => g p o + (rows.map fun r => amount p r.1 * r.2 o).sum := by
    induction rows with
    | nil => simp
    | cons r rs ih =>
      intro g
      rw [List.map_cons, List.foldl_cons, addRow, modifyAll_grid, ih]
      simp only [List.map_cons, List.sum_cons, add_assoc]
  rw [collect_eq_foldl, hzero, hfold]
  simp

theorem target_eq (e : Example κ) :
    target outcomes e = (List.range outcomes).map fun o => if e.outcome = o then e.weight else 0 := by
  apply List.ext_getElem
  · simp [target, zeros]
  · intro o ho ho'
    simp [target, zeros, List.getElem_set]

theorem observed_eq_grid (examples : List (Example κ)) :
    observed predicates outcomes examples = grid predicates outcomes fun p o =>
      (examples.map fun e => amount p e.features * if e.outcome = o then e.weight else 0).sum := by
  have h := collect_eq_grid predicates outcomes
    (examples.map fun e : Example κ => (e.features, fun o => if e.outcome = o then e.weight else 0))
  simp only [List.map_map] at h
  rw [observed]
  simp only [target_eq]
  exact h

end Scaling

end MaxEnt
