import Mathlib
import MaxEnt.Proofs.Training.Ordered
import MaxEnt.Proofs.Training.Steps
import MaxEnt.Proofs.Training.Weights

namespace MaxEnt

/-- Numbers that may be undefined. -/
def Checked (κ : Type) : Type := Option κ

namespace Checked

variable {κ : Type}

def of (x : κ) : Checked κ := some x

def undefined : Checked κ := none

def lift (f : κ → κ → κ) (x y : Checked κ) : Checked κ := Option.map₂ f x y

variable [Scalar κ]

def positive (x : Checked κ) : Checked κ := Option.filter (Scalar.lt 0) x

/-- Logarithms are defined of positive numbers only, and so are quotients. Only finite doubles are
numbers. What is undefined is not a number and is in no order to others. -/
instance : Scalar (Checked κ) where
  zero := of 0
  one := of 1
  add := lift (· + ·)
  sub := lift (· - ·)
  mul := lift (· * ·)
  div x y := lift (· / ·) x (positive y)
  ofInt n := of (Scalar.ofInt n)
  ofBinary64 x := if x.isFinite then of (Scalar.ofBinary64 x) else undefined
  exp := Option.map Scalar.exp
  log x := Option.map Scalar.log (positive x)
  le x y := (Option.map₂ Scalar.le x y).getD false
  lt x y := (Option.map₂ Scalar.lt x y).getD false
  isNaN x := (Option.map Scalar.isNaN x).getD true

variable (x y : κ)

theorem of_zero : (0 : Checked κ) = of 0 := rfl

theorem of_add : of x + of y = of (x + y) := rfl

theorem of_sub : of x - of y = of (x - y) := rfl

theorem le_of : Scalar.le (of x) (of y) = Scalar.le x y := rfl

theorem lt_of : Scalar.lt (of x) (of y) = Scalar.lt x y := rfl

theorem of_div {y : κ} (h : Scalar.lt 0 y = true) : of x / of y = of (x / y) := by
  have hy : positive (of y) = of y := Option.filter_some_pos h
  have hdiv : of x / of y = lift (· / ·) (of x) (positive (of y)) := rfl
  rw [hdiv, hy]
  rfl

theorem log_of {x : κ} (h : Scalar.lt 0 x = true) : Scalar.log (of x) = of (Scalar.log x) := by
  have hx : positive (of x) = of x := Option.filter_some_pos h
  have hlog : Scalar.log (of x) = Option.map Scalar.log (positive (of x)) := rfl
  rw [hlog, hx]
  rfl

theorem log_undefined {x : κ} (h : Scalar.lt 0 x = false) : Scalar.log (of x) = undefined := by
  have hx : positive (of x) = undefined := by
    rw [positive, of, undefined, Option.filter_some, h]
    rfl
  have hlog : Scalar.log (of x) = Option.map Scalar.log (positive (of x)) := rfl
  rw [hlog, hx]
  rfl

theorem ofBinary64_of {x : Binary64} (h : x.isFinite = true) :
    (Scalar.ofBinary64 x : Checked κ) = of (Scalar.ofBinary64 x) := if_pos h

theorem greater_of : Scalar.greater (of x) (of y) = of (Scalar.greater x y) := by
  have hnan : Scalar.isNaN (of x) = Scalar.isNaN x := rfl
  rw [Scalar.greater, Scalar.greater, le_of, hnan]
  split <;> rfl

theorem sum_map_of (xs : List κ) : Scalar.sum (xs.map of) = of (Scalar.sum xs) := by
  have hfold : ∀ sum : κ, (xs.map of).foldl (· + ·) (of sum) = of (xs.foldl (· + ·) sum) := by
    induction xs with
    | nil => exact fun _ => rfl
    | cons x xs ih => exact fun sum => ih (sum + x)
  exact hfold 0

theorem greatest_map_of (xs : List κ) : Scalar.greatest (xs.map of) = of (Scalar.greatest xs) := by
  cases xs with
  | nil => rfl
  | cons x xs =>
    have hfold : ∀ top : κ, (xs.map of).foldl Scalar.greater (of top) =
        of (xs.foldl Scalar.greater top) := by
      induction xs with
      | nil => exact fun _ => rfl
      | cons x xs ih =>
        intro top
        rw [List.map_cons, List.foldl_cons, List.foldl_cons, greater_of]
        exact ih _
    exact hfold x

end Checked

open Checked

theorem Scalar.softmax_map_of {κ : Type} [LinearOrder κ] [OrderedScalar κ]
    (hexp : ∀ x : κ, 0 < exp x) (hone : exp (0 : κ) = 1) (scores : List κ) :
    softmax (scores.map of) = (softmax scores).map of := by
  have hshares : shares (scores.map of) = (shares scores).map of := by
    rw [shares, shares, greatest_map_of, List.map_map, List.map_map]
    rfl
  rw [softmax_eq, softmax_eq, whole, hshares, sum_map_of, List.map_map, List.map_map]
  apply List.map_congr_left
  intro share hshare
  have hne : scores ≠ [] := by
    rintro rfl
    cases hshare
  apply of_div
  rw [OrderedScalar.lt_eq]
  exact decide_eq_true (zero_lt_one.trans_le (one_le_whole hexp hone hne))

def Example.checkedFeatures {κ : Type} (features : List (Nat × κ)) : List (Nat × Checked κ) :=
  features.map fun f => (f.1, of f.2)

def Example.checked {κ : Type} (e : Example κ) : Example (Checked κ) :=
  ⟨checkedFeatures e.features, e.outcome, of e.weight⟩

namespace Scaling

def checkedRows {κ : Type} (rows : Array (List κ)) : Array (List (Checked κ)) := rows.map (List.map of)

def checked {κ : Type} (s : Scaling κ) : Scaling (Checked κ) :=
  ⟨s.outcomes, s.examples.map .checked, s.goals.map (List.map (Option.map of)), of s.correction⟩

section

variable {κ : Type} [Scalar κ]

theorem addMultiple_map_of (factor : κ) (row sums : List κ) :
    addMultiple (of factor) (row.map of) (sums.map of) = (addMultiple factor row sums).map of := by
  rw [addMultiple, addMultiple, List.zipWith_map, List.map_zipWith]
  rfl

theorem zeros_map_of (outcomes : Nat) :
    (zeros outcomes : List (Checked κ)) = (zeros outcomes : List κ).map of := by
  rw [zeros, zeros, List.map_replicate]
  rfl

theorem modify_checkedRows (sums : Array (List κ)) (f : Nat × κ) (row : List κ) :
    (checkedRows sums).modify f.1 (addMultiple (of f.2) (row.map of)) =
      checkedRows (sums.modify f.1 (addMultiple f.2 row)) := by
  apply Array.ext
  · simp [checkedRows]
  · intro p hp hp'
    simp only [checkedRows, Array.getElem_modify, Array.getElem_map]
    split
    · exact addMultiple_map_of ..
    · rfl

theorem collect_checkedRows (predicates outcomes : Nat) (rows : List (List (Nat × κ) × List κ)) :
    collect predicates outcomes (rows.map fun r => (Example.checkedFeatures r.1, r.2.map of)) =
      checkedRows (collect predicates outcomes rows) := by
  have hrow : ∀ (features : List (Nat × κ)) (row : List κ) (sums : Array (List κ)),
      (Example.checkedFeatures features).foldl
        (fun sums f => sums.modify f.1 (addMultiple f.2 (row.map of))) (checkedRows sums) =
      checkedRows (features.foldl (fun sums f => sums.modify f.1 (addMultiple f.2 row)) sums) := by
    intro features row
    induction features with
    | nil => exact fun _ => rfl
    | cons f features ih =>
      intro sums
      rw [Example.checkedFeatures, List.map_cons, List.foldl_cons, List.foldl_cons,
        modify_checkedRows]
      exact ih _
  have hrows : ∀ sums : Array (List κ),
      (rows.map fun r => (Example.checkedFeatures r.1, r.2.map of)).foldl
        (fun sums r => r.1.foldl (fun sums f => sums.modify f.1 (addMultiple f.2 r.2)) sums)
        (checkedRows sums) =
      checkedRows (rows.foldl
        (fun sums r => r.1.foldl (fun sums f => sums.modify f.1 (addMultiple f.2 r.2)) sums) sums) := by
    induction rows with
    | nil => exact fun _ => rfl
    | cons r rows ih =>
      intro sums
      rw [List.map_cons, List.foldl_cons, List.foldl_cons, hrow]
      exact ih _
  have hstart : (Array.replicate predicates (zeros outcomes) : Array (List (Checked κ))) =
      checkedRows (Array.replicate predicates (zeros outcomes)) := by
    rw [checkedRows, Array.map_replicate, zeros_map_of]
  rw [collect, hstart]
  exact hrows _

theorem target_checked (outcomes : Nat) (e : Example κ) :
    target outcomes e.checked = (target outcomes e).map of := by
  rw [target, target, List.map_set, zeros_map_of]
  rfl

theorem observed_checked (predicates outcomes : Nat) (examples : List (Example κ)) :
    observed predicates outcomes (examples.map .checked) =
      checkedRows (observed predicates outcomes examples) := by
  rw [observed, observed, ← collect_checkedRows, List.map_map, List.map_map]
  simp only [Function.comp_def, target_checked]
  rfl

theorem start_checked (s : Scaling κ) : s.checked.start = checkedRows s.start := by
  simp [start, checked, checkedRows, zeros_map_of, Function.comp_def, List.map_const']

theorem scores_checked (s : Scaling κ) (weights : Array (List κ)) (e : Example κ) :
    s.checked.scores (checkedRows weights) e.checked = (s.scores weights e).map of := by
  have hfold : ∀ (features : List (Nat × κ)) (sums : List κ),
      (Example.checkedFeatures features).foldl
        (fun sums f => addMultiple f.2 ((checkedRows weights).getD f.1 []) sums) (sums.map of) =
      (features.foldl (fun sums f => addMultiple f.2 (weights.getD f.1 []) sums) sums).map of := by
    intro features
    induction features with
    | nil => exact fun _ => rfl
    | cons f features ih =>
      intro sums
      have hrow : (checkedRows weights).getD f.1 [] = (weights.getD f.1 []).map of := by
        simp only [checkedRows, Array.getD_eq_getD_getElem?, Array.getElem?_map]
        cases weights[f.1]? <;> rfl
      rw [Example.checkedFeatures, List.map_cons, List.foldl_cons, List.foldl_cons, hrow,
        addMultiple_map_of]
      exact ih _
  have hzeros : (zeros s.checked.outcomes : List (Checked κ)) = (zeros s.outcomes).map of :=
    zeros_map_of s.outcomes
  rw [scores, scores, hzeros]
  exact hfold e.features (zeros s.outcomes)

theorem mass_checked (e : Example κ) : mass e.checked = of (mass e) := by
  rw [mass, mass, ← sum_map_of, List.map_map]
  exact congrArg Scalar.sum (List.map_map ..)

theorem greatestMass_checked (examples : List (Example κ)) :
    greatestMass (examples.map .checked) = of (greatestMass examples) := by
  have hmasses : (examples.map Example.checked).map mass = (examples.map mass).map of := by
    rw [List.map_map, List.map_map]
    exact List.map_congr_left fun e _ => mass_checked e
  have hle : Scalar.le (of (Scalar.greatest (examples.map mass))) (0 : Checked κ) =
    Scalar.le (Scalar.greatest (examples.map mass)) 0 := rfl
  rw [greatestMass, greatestMass, hmasses, greatest_map_of, List.isEmpty_map]
  dsimp only
  rw [hle]
  split
  · rfl
  · split <;> rfl

end

section

variable {κ : Type} [LinearOrder κ] [OrderedScalar κ]

theorem tiny_checked : (tiny : Checked κ) = of tiny := ofBinary64_of (by decide)

theorem log_greater_tiny (x : κ) : Scalar.log (Scalar.greater (of x) tiny) =
    of (Scalar.log (Scalar.greater x tiny)) := by
  rw [tiny_checked, greater_of]
  apply log_of
  rw [OrderedScalar.lt_eq]
  exact decide_eq_true (greater_tiny_pos x)

theorem goal_checked {replacement : Option κ} (h : ∀ x, replacement = some x → 0 < x) (x : κ) :
    goal (replacement.map of) (of x) = (goal replacement x).map of := by
  rw [goal, goal, of_zero, lt_of]
  by_cases hx : Scalar.lt 0 x = true
  · rw [if_pos hx, if_pos hx, log_of hx]
    rfl
  · rw [if_neg hx, if_neg hx]
    cases hr : replacement with
    | none => rfl
    | some y =>
      have hy : Scalar.lt 0 y = true := by
        rw [OrderedScalar.lt_eq]
        exact decide_eq_true (h y hr)
      simp only [Option.map_some, log_of hy]

theorem goal_undefined {x y : κ} (hx : x ≤ 0) (hy : y ≤ 0) :
    goal (some (of y)) (of x) = some undefined := by
  have hx' : Scalar.lt 0 x = false := by
    rw [OrderedScalar.lt_eq, decide_eq_false_iff_not, not_lt]
    exact hx
  have hy' : Scalar.lt 0 y = false := by
    rw [OrderedScalar.lt_eq, decide_eq_false_iff_not, not_lt]
    exact hy
  rw [goal, of_zero, lt_of, hx', if_neg Bool.false_ne_true, Option.map_some, log_undefined hy']

theorem ofExamples_checked (predicates outcomes : Nat) {replacement : Option κ}
    (h : ∀ x, replacement = some x → 0 < x) (examples : List (Example κ)) :
    ofExamples predicates outcomes (replacement.map of) (examples.map .checked) =
      (ofExamples predicates outcomes replacement examples).checked := by
  have hgoals : ((observed predicates outcomes (examples.map .checked)).toList.map
      fun row => row.map (goal (replacement.map of))) =
      ((observed predicates outcomes examples).toList.map fun row => row.map (goal replacement)).map
        (List.map (Option.map of)) := by
    rw [observed_checked, checkedRows, Array.toList_map, List.map_map, List.map_map]
    apply List.map_congr_left
    intro row _
    simp only [Function.comp_apply, List.map_map]
    exact List.map_congr_left fun x _ => goal_checked h x
  rw [ofExamples, ofExamples, checked, greatestMass_checked, hgoals]

theorem likelihood_checked (s : Scaling κ) (rows : List (List κ)) :
    s.checked.likelihood (rows.map (List.map of)) = of (s.likelihood rows) := by
  have hterm : ∀ (e : Example κ) (row : List κ),
      e.checked.weight * Scalar.log (Scalar.greater ((row.map of).getD e.checked.outcome 0) tiny) =
        of (e.weight * Scalar.log (Scalar.greater (row.getD e.outcome 0) tiny)) := by
    intro e row
    have hcertainty : (row.map of).getD e.outcome 0 = of (row.getD e.outcome 0) := by
      simp only [List.getD_eq_getElem?_getD, List.getElem?_map]
      cases row[e.outcome]? <;> rfl
    rw [Example.checked, hcertainty, log_greater_tiny]
    rfl
  rw [likelihood, likelihood, ← sum_map_of, checked, List.zipWith_map, List.map_zipWith]
  simp only [hterm]

theorem expected_checked (s : Scaling κ) (rows : List (List κ)) :
    s.checked.expected (rows.map (List.map of)) = checkedRows (s.expected rows) := by
  have hrow : ∀ (e : Example κ) (row : List κ), (row.map of).map (· * e.checked.weight) =
      (row.map (· * e.weight)).map of := by
    intro e row
    rw [List.map_map, List.map_map]
    rfl
  rw [expected, expected, ← collect_checkedRows, checked, List.length_map, List.zipWith_map,
    List.map_zipWith]
  simp only [hrow]
  rfl

variable {s : Scaling κ}

theorem probabilities_checked (hexp : ∀ x : κ, 0 < Scalar.exp x) (hone : Scalar.exp (0 : κ) = 1)
    (weights : Array (List κ)) : s.checked.probabilities (checkedRows weights) =
      (s.probabilities weights).map (List.map of) := by
  rw [probabilities, probabilities, checked, List.map_map, List.map_map]
  apply List.map_congr_left
  intro e _
  have hscores := scores_checked s weights e
  rw [checked] at hscores
  rw [Function.comp_apply, hscores, Scalar.softmax_map_of hexp hone]
  rfl

theorem improveWeight_of {correction : κ} (hc : 0 < correction) (goal : Option κ) (expected weight : κ) :
    improveWeight (of correction) (goal.map of) (of expected) (of weight) =
      of (improveWeight correction goal expected weight) := by
  cases goal with
  | none => rfl
  | some g =>
    have hlt : Scalar.lt 0 correction = true := by
      rw [OrderedScalar.lt_eq]
      exact decide_eq_true hc
    simp only [improveWeight, Option.map_some, log_greater_tiny, of_sub, of_div _ hlt, of_add]

theorem improveRow_map_of {correction : κ} (hc : 0 < correction) (goals : List (Option κ))
    (expected weights : List κ) :
    improveRow (of correction) (goals.map (Option.map of)) (expected.map of) (weights.map of) =
      (improveRow correction goals expected weights).map of := by
  rw [improveRow, improveRow, List.zip_map, List.zipWith_map, List.map_zipWith]
  simp only [Prod.map, improveWeight_of hc]

theorem improve_checked (hc : 0 < s.correction) (rows : List (List κ)) (weights : Array (List κ)) :
    s.checked.improve (rows.map (List.map of)) (checkedRows weights) =
      checkedRows (s.improve rows weights) := by
  rw [improve, improve, expected_checked, checked, checkedRows, checkedRows, checkedRows]
  simp only [Array.toList_map, List.zip_map, List.zipWith_map, List.map_toArray, List.map_zipWith,
    Prod.map, improveRow_map_of hc]

theorem after_checked (hexp : ∀ x : κ, 0 < Scalar.exp x) (hone : Scalar.exp (0 : κ) = 1)
    (hc : 0 < s.correction) (k : Nat) : s.checked.after k = checkedRows (s.after k) := by
  induction k with
  | zero => exact start_checked s
  | succ k ih => rw [after, after, ih, probabilities_checked hexp hone, improve_checked hc]

theorem likelihoodAt_checked (hexp : ∀ x : κ, 0 < Scalar.exp x) (hone : Scalar.exp (0 : κ) = 1)
    (hc : 0 < s.correction) (k : Nat) : s.checked.likelihoodAt k = of (s.likelihoodAt k) := by
  rw [likelihoodAt, likelihoodAt, after_checked hexp hone hc, probabilities_checked hexp hone,
    likelihood_checked]

end

end Scaling

namespace Example

variable {κ : Type} [Scalar κ]

theorem combine_checked (features : List (Nat × κ)) :
    combine (checkedFeatures features) = checkedFeatures (combine features) := by
  have hadd : ∀ (done : List (Nat × κ)) (f : Nat × κ),
      addFeature (checkedFeatures done) (f.1, of f.2) = checkedFeatures (addFeature done f) := by
    intro done f
    induction done with
    | nil => rfl
    | cons g gs ih =>
      rw [checkedFeatures, List.map_cons, addFeature, addFeature]
      by_cases hg : g.1 = f.1
      · rw [if_pos hg, if_pos hg]
        rfl
      · rw [if_neg hg, if_neg hg]
        exact congrArg _ ih
  have hfold : ∀ done : List (Nat × κ), (checkedFeatures features).foldl addFeature
      (checkedFeatures done) = checkedFeatures (features.foldl addFeature done) := by
    induction features with
    | nil => exact fun _ => rfl
    | cons f features ih =>
      intro done
      have hcons : checkedFeatures (f :: features) = (f.1, of f.2) :: checkedFeatures features := rfl
      rw [hcons, List.foldl_cons, List.foldl_cons, hadd]
      exact ih _
  exact hfold []

end Example

namespace EventIndex

variable {κ : Type} [Scalar κ] {x : EventIndex}

theorem cut_map {α β : Type} (f : α → β) (ns : List Nat) (xs : List α) :
    cut ns (xs.map f) = (cut ns xs).map (List.map f) := by
  induction ns generalizing xs with
  | nil => rfl
  | cons n ns ih => rw [cut, cut, List.map_cons, List.map_take, ← List.map_drop, ih]

theorem scalars_checked (h : ∀ vs, x.values = some vs → ∀ v ∈ vs.flatten, v.isFinite = true) :
    x.scalars (Checked κ) = (x.scalars κ).map of := by
  have hones : ∀ places : List Nat,
      (places.map fun _ => (1 : Checked κ)) = (places.map fun _ => (1 : κ)).map of := by
    intro places
    rw [List.map_map]
    rfl
  rw [scalars, scalars]
  split
  · exact hones _
  · rename_i vs hvs
    rw [List.map_map]
    exact List.map_congr_left fun v hv => ofBinary64_of (h vs hvs v hv)

theorem features_checked (h : ∀ vs, x.values = some vs → ∀ v ∈ vs.flatten, v.isFinite = true) :
    x.features (Checked κ) = (x.features κ).map Example.checkedFeatures := by
  have hzip : (x.contexts.flatten.map Int.toNat).zip ((x.scalars κ).map of) =
      Example.checkedFeatures ((x.contexts.flatten.map Int.toNat).zip (x.scalars κ)) :=
    List.zip_map_right
  rw [features_eq, features_eq, scalars_checked h, hzip, Example.checkedFeatures, cut_map,
    List.map_map, List.map_map]
  exact List.map_congr_left fun piece _ => Example.combine_checked piece

theorem allExamples_checked (h : ∀ vs, x.values = some vs → ∀ v ∈ vs.flatten, v.isFinite = true) :
    x.allExamples (Checked κ) = (x.allExamples κ).map .checked := by
  rw [allExamples, allExamples, features_checked h, List.zipWith_map_left, List.map_zipWith]
  rfl

theorem observed_checked (h : ∀ vs, x.values = some vs → ∀ v ∈ vs.flatten, v.isFinite = true) :
    x.observed (Checked κ) = Scaling.checkedRows (x.observed κ) := by
  rw [observed, observed, allExamples_checked h, Scaling.observed_checked]

end EventIndex

/-- If the values are finite and what replaces others is positive, training begins with examples and
goals that are defined. -/
theorem Scaling.ofIndex_checked {κ : Type} [LinearOrder κ] [OrderedScalar κ] {p : Plan} {x : EventIndex}
    {s : Scaling κ} (hvalues : ∀ vs, x.values = some vs → ∀ v ∈ vs.flatten, v.isFinite = true)
    (hreplacement : ∀ b, p.replacement = some b → b.isFinite = true ∧ Binary64.zero.lessThan b = true)
    (hs : ofIndex κ p x = .ok s) : ofIndex (Checked κ) p x = .ok s.checked := by
  have hreplaced : p.replacement.map (Scalar.ofBinary64 (κ := Checked κ)) =
      (p.replacement.map Scalar.ofBinary64).map of := by
    cases hr : p.replacement with
    | none => rfl
    | some b => exact congrArg some (ofBinary64_of (hreplacement b hr).1)
  have hpositive : ∀ y : κ, p.replacement.map Scalar.ofBinary64 = some y → 0 < y := by
    intro y hy
    obtain ⟨b, hb, rfl⟩ := Option.map_eq_some_iff.1 hy
    obtain ⟨hfinite, hlt⟩ := hreplacement b hb
    exact (Binary64.zero_lt_ofBinary64_iff hfinite).2 hlt
  obtain ⟨hcheck, rfl⟩ := ofIndex_eq_ok_iff.1 hs
  rw [ofIndex_eq_ok_iff, ← ofExamples_checked _ _ hpositive,
    ← EventIndex.allExamples_checked hvalues, ← hreplaced]
  exact ⟨hcheck, rfl⟩

end MaxEnt
