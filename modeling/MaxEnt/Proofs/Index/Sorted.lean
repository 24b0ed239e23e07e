import Mathlib
import MaxEnt.Proofs.Index.Kept
import MaxEnt.Proofs.Training.Examples

namespace MaxEnt

namespace EventIndex

def valueColumn (x : EventIndex) : List (Option (List Binary64)) :=
  match x.values with
  | none => x.outcomes.map fun _ => none
  | some vs => vs.map some

/-- The rows that stand in the columns, each with how often it was seen. -/
def seen (x : EventIndex) : List (Row × Nat) :=
  (x.outcomes.zip (x.contexts.zip (x.valueColumn.zip x.counts))).map
    fun (outcome, context, values, count) =>
      (⟨outcome.toNat, context.map Int.toNat, values⟩, count.toNat)

variable {rows : List (Row × Nat)} {keepsValues : Bool}

theorem valueColumn_ofRows (h : ∀ r ∈ rows, r.1.Regular keepsValues)
    (predicates : List (Text × Nat)) (labels : List Text) :
    (ofRows rows keepsValues predicates labels).valueColumn = rows.map fun r => r.1.values := by
  cases keepsValues with
  | false =>
    have hcolumn : (ofRows rows false predicates labels).valueColumn = rows.map fun _ => none :=
      List.map_map ..
    rw [hcolumn]
    apply List.map_congr_left
    intro r hr
    exact (Option.isNone_iff_eq_none.1 (Option.isSome_eq_false_iff.1 (h r hr).isSome_values)).symm
  | true =>
    have hcolumn : (ofRows rows true predicates labels).valueColumn =
        rows.map fun r => some (r.1.values.getD []) := List.map_map ..
    rw [hcolumn]
    apply List.map_congr_left
    intro r hr
    obtain ⟨values, hv⟩ := Option.isSome_iff_exists.1 (h r hr).isSome_values
    rw [hv]
    rfl

theorem seen_ofRows (h : ∀ r ∈ rows, r.1.Regular keepsValues) (predicates : List (Text × Nat))
    (labels : List Text) : (ofRows rows keepsValues predicates labels).seen = rows := by
  rw [seen, valueColumn_ofRows h]
  simp [ofRows, List.zip_map', Function.comp_def]

end EventIndex

namespace Indexing

/-- The values that an indexer keeps are numbers, and none is below zero. -/
def Admissible (ix : Indexer) (events : List Event) : Prop :=
  ix.keepsValues = true → ∀ e ∈ events, ∀ x ∈ e.values.getD [],
    x.isNaN = false ∧ x.lessThan .zero = false

theorem admissible_onePass (events : List Event) : Admissible .onePass events := by
  intro hkeeps
  cases hkeeps

theorem ofEvents_eq_build {s : IndexSettings} {events : List Event} (hs : s.indexer ≠ .twoPass)
    (h : Admissible s.indexer events) : ofEvents s events = .ok (build s events events) := by
  rw [ofEvents]
  cases hi : s.indexer with
  | onePass => rfl
  | twoPass => exact absurd hi hs
  | onePassRealValue =>
    have hnone : events.find? hasNegative = none := by
      rw [List.find?_eq_none]
      intro e he hneg
      obtain ⟨x, hx, hlt⟩ := List.any_eq_true.1 hneg
      rw [hi] at h
      rw [(h rfl e he x hx).2] at hlt
      exact Bool.false_ne_true hlt
    rw [hnone]

/-- What is an index of sorted and merged rows to one of all rows. -/
structure Merges (i j : Indexing) : Prop where
  predicates : i.index.predicates = j.index.predicates
  occurrences : i.index.occurrences = j.index.occurrences
  labels : i.index.labels = j.index.labels
  report : i.report = j.report
  dropped : i.dropped = j.dropped
  columns : ∀ x ∈ [i.index, j.index], ∃ predicates, x =
    .ofRows x.seen x.values.isSome predicates x.labels
  increasing : i.index.seen.Pairwise fun a b => a.1.precedes b.1 = true
  distinct : i.index.seen.Pairwise fun a b => a.1.equals b.1 = false
  seen : ∀ r ∈ i.index.seen, 1 ≤ r.2

section

variable {ix : Indexer} {events : List Event} (cutoff : Int)

theorem regular_of_admissible (h : Admissible ix events) (sort : Bool) :
    ∀ r ∈ keptRows ⟨ix, cutoff, sort⟩ events, r.Regular ix.keepsValues :=
  regular_keptRows fun hkeeps e he x hx => (h hkeeps e he x hx).1

theorem index_sorted : (build ⟨ix, cutoff, true⟩ events events).index =
    .ofRows (sortAndMerge (keptRows ⟨ix, cutoff, true⟩ events)) ix.keepsValues
      (keptPredicates cutoff events) (keptLabels cutoff events) := index_build _ _

theorem index_unsorted : (build ⟨ix, cutoff, false⟩ events events).index =
    .ofRows ((keptRows ⟨ix, cutoff, false⟩ events).map fun r => (r, 1)) ix.keepsValues
      (keptPredicates cutoff events) (keptLabels cutoff events) := index_build _ _

theorem regular_sorted (h : Admissible ix events) :
    ∀ r ∈ sortAndMerge (keptRows ⟨ix, cutoff, true⟩ events), r.1.Regular ix.keepsValues :=
  (strict_sortAndMerge (regular_of_admissible cutoff h true)).regular

theorem regular_unsorted (h : Admissible ix events) :
    ∀ r ∈ (keptRows ⟨ix, cutoff, false⟩ events).map fun r => (r, 1),
      r.1.Regular ix.keepsValues :=
  List.forall_mem_map.2 (regular_of_admissible cutoff h false)

theorem seen_sorted (h : Admissible ix events) :
    (build ⟨ix, cutoff, true⟩ events events).index.seen =
      sortAndMerge (keptRows ⟨ix, cutoff, true⟩ events) := by
  rw [index_sorted]
  exact EventIndex.seen_ofRows (regular_sorted cutoff h) _ _

theorem seen_unsorted (h : Admissible ix events) :
    (build ⟨ix, cutoff, false⟩ events events).index.seen =
      (keptRows ⟨ix, cutoff, false⟩ events).map fun r => (r, 1) := by
  rw [index_unsorted]
  exact EventIndex.seen_ofRows (regular_unsorted cutoff h) _ _

theorem columns_build (h : Admissible ix events) (sort : Bool) : ∃ predicates,
    (build ⟨ix, cutoff, sort⟩ events events).index =
      .ofRows (build ⟨ix, cutoff, sort⟩ events events).index.seen
        (build ⟨ix, cutoff, sort⟩ events events).index.values.isSome predicates
        (build ⟨ix, cutoff, sort⟩ events events).index.labels := by
  have hsome : (build ⟨ix, cutoff, sort⟩ events events).index.values.isSome = ix.keepsValues := by
    rw [index_build]
    simp only [EventIndex.ofRows]
    cases ix.keepsValues <;> rfl
  have hlabels : (build ⟨ix, cutoff, sort⟩ events events).index.labels =
      keptLabels cutoff events := labels_build
  refine ⟨keptPredicates cutoff events, ?_⟩
  rw [hsome, hlabels]
  cases sort with
  | false => rw [seen_unsorted cutoff h, index_unsorted]
  | true => rw [seen_sorted cutoff h, index_sorted]

theorem exists_rows_build (h : Admissible ix events) (sort : Bool) : ∃ rows,
    (build ⟨ix, cutoff, sort⟩ events events).index = .ofRows rows ix.keepsValues
        (keptPredicates cutoff events) (keptLabels cutoff events) ∧
      (∀ r ∈ rows, r.1.Regular ix.keepsValues) ∧
      (∀ r ∈ rows, r.1 ∈ keptRows ⟨ix, cutoff, sort⟩ events) ∧
      ∀ t ∈ keptRows ⟨ix, cutoff, sort⟩ events, ∃ r ∈ rows, r.1.equals t = true := by
  have hregular := regular_of_admissible cutoff h sort
  cases sort with
  | false =>
    refine ⟨_, index_unsorted cutoff, regular_unsorted cutoff h, ?_, ?_⟩
    · rw [List.forall_mem_map]
      exact fun r hr => hr
    · intro t ht
      refine ⟨(t, 1), List.mem_map_of_mem ht, ?_⟩
      exact (Row.equals_iff_key_eq (hregular t ht) (hregular t ht)).2 rfl
  | true =>
    refine ⟨_, index_sorted cutoff, regular_sorted cutoff h, ?_, ?_⟩
    · intro r hr
      exact (sorted_perm hregular).mem_iff.1 (mem_merge hr)
    · exact fun t ht => exists_mem_sortAndMerge hregular ht

theorem merges_build (h : Admissible ix events) :
    Merges (build ⟨ix, cutoff, true⟩ events events) (build ⟨ix, cutoff, false⟩ events events) := by
  have hstrict := strict_sortAndMerge (regular_of_admissible cutoff h true)
  have hseen := seen_sorted cutoff h
  refine ⟨rfl, rfl, rfl, rfl, rfl, ?_, ?_, ?_, ?_⟩
  · intro x hx
    obtain rfl | hx := List.mem_cons.1 hx
    · exact columns_build cutoff h true
    · obtain rfl := List.mem_singleton.1 hx
      exact columns_build cutoff h false
  · rw [hseen]
    apply hstrict.increasing.imp_of_mem
    intro a b ha hb hlt
    exact (Row.precedes_iff_key_lt (hstrict.regular a ha) (hstrict.regular b hb)).2 hlt
  · rw [hseen]
    apply hstrict.increasing.imp_of_mem
    intro a b ha hb hlt
    rw [← Bool.not_eq_true, Row.equals_iff_key_eq (hstrict.regular a ha) (hstrict.regular b hb)]
    exact hlt.ne
  · rw [hseen]
    exact hstrict.seen

theorem weigh_build {M : Type*} [AddCommMonoid M] {f : Row → M}
    (hf : ∀ a b : Row, a.equals b = true → f a = f b) (h : Admissible ix events) :
    weigh f (build ⟨ix, cutoff, true⟩ events events).index.seen =
      ((build ⟨ix, cutoff, false⟩ events events).index.seen.map fun r => f r.1).sum := by
  rw [seen_sorted cutoff h, seen_unsorted cutoff h, List.map_map]
  exact weigh_sortAndMerge hf (regular_of_admissible cutoff h true)

theorem observed_build {κ : Type} [ExactScalar κ] (h : Admissible ix events) :
    (build ⟨ix, cutoff, true⟩ events events).index.observed κ =
      (build ⟨ix, cutoff, false⟩ events events).index.observed κ := by
  rw [index_sorted, index_unsorted, EventIndex.observed_ofRows (regular_sorted cutoff h),
    EventIndex.observed_ofRows (regular_unsorted cutoff h)]
  apply Scaling.grid_congr
  intro p o
  rw [weigh_once,
    weigh_sortAndMerge (fun _ _ hab => Row.share_congr hab p o) (regular_of_admissible cutoff h true)]
  rfl

end

/-- Sorting and merging loses nothing. -/
theorem ofEvents_sorted (ix : Indexer) (hix : ix ≠ .twoPass) (cutoff : Int) (events : List Event)
    (h : Admissible ix events) :
    ∃ i j, ofEvents ⟨ix, cutoff, true⟩ events = .ok i ∧
      ofEvents ⟨ix, cutoff, false⟩ events = .ok j ∧ Merges i j ∧
      (∀ {M : Type*} [AddCommMonoid M] (f : Row → M),
        (∀ a b : Row, a.equals b = true → f a = f b) →
          (i.index.seen.map fun r => r.2 • f r.1).sum = (j.index.seen.map fun r => f r.1).sum) ∧
      ∀ {κ : Type} [ExactScalar κ], i.index.observed κ = j.index.observed κ :=
  ⟨_, _, ofEvents_eq_build hix h, ofEvents_eq_build hix h, merges_build cutoff h,
    fun _ hf => weigh_build cutoff hf h, observed_build cutoff h⟩

def signedZeros : List Event :=
  [⟨"b", .valued [("p", .one), ("q", .zero)]⟩,
    ⟨"b", .valued [("p", .one), ("q", .ofMagnitude true 0)]⟩, ⟨"a", .plain ["q"]⟩]

theorem admissible_signedZeros : Admissible .onePassRealValue signedZeros := by
  intro _
  decide

theorem ofEvents_sorted_signedZeros :
    Indexer.onePassRealValue ≠ .twoPass ∧ Admissible .onePassRealValue signedZeros ∧
      ∃ i j, ofEvents ⟨.onePassRealValue, 1, true⟩ signedZeros = .ok i ∧
        ofEvents ⟨.onePassRealValue, 1, false⟩ signedZeros = .ok j ∧ Merges i j ∧
        i.index.counts = [2, 1] ∧ j.index.counts = [1, 1, 1] ∧
        letI := ExactScalar.real Real.exp Real.log
        i.index.observed ℝ = j.index.observed ℝ := by
  have hix : Indexer.onePassRealValue ≠ .twoPass := by decide
  obtain ⟨i, j, hi, hj, hmerges, -, hobserved⟩ :=
    ofEvents_sorted.{0} .onePassRealValue hix 1 signedZeros admissible_signedZeros
  have hsorted : (ofEvents ⟨.onePassRealValue, 1, true⟩ signedZeros).map (·.index.counts) =
      .ok [2, 1] := by cbv
  have hunsorted : (ofEvents ⟨.onePassRealValue, 1, false⟩ signedZeros).map (·.index.counts) =
      .ok [1, 1, 1] := by cbv
  rw [hi] at hsorted
  rw [hj] at hunsorted
  let real := ExactScalar.real Real.exp Real.log
  exact ⟨hix, admissible_signedZeros, i, j, hi, hj, hmerges, Except.ok.inj hsorted,
    Except.ok.inj hunsorted, hobserved⟩

end Indexing

end MaxEnt
