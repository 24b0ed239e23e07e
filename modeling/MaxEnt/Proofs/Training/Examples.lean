import Mathlib.Data.List.Basic
import MaxEnt.Proofs.Index.Merge
import MaxEnt.Proofs.Training.Observed
import MaxEnt.Training.Method

namespace MaxEnt

theorem zip_flatten_map {α β γ : Type} (xs : List α) (f : α → List β) (g : α → List γ)
    (h : ∀ x ∈ xs, (f x).length = (g x).length) :
    (xs.map f).flatten.zip (xs.map g).flatten = (xs.map fun x => (f x).zip (g x)).flatten := by
  induction xs with
  | nil => rfl
  | cons x xs ih =>
    obtain ⟨hx, hxs⟩ := List.forall_mem_cons.1 h
    simp only [List.map_cons, List.flatten_cons]
    rw [List.zip_append hx, ih hxs]

namespace EventIndex

theorem cut_flatten {α : Type} (xss : List (List α)) :
    cut (xss.map List.length) xss.flatten = xss := by
  induction xss with
  | nil => rfl
  | cons xs xss ih =>
    rw [List.map_cons, cut, List.flatten_cons, List.take_left, List.drop_left, ih]

theorem stretch_of_length {height : Nat} {xs : List Int} (h : xs.length = height) :
    stretch height xs = xs := by
  match xs with
  | [] => rfl
  | [x] =>
    subst h
    rfl
  | _ :: _ :: _ => rfl

variable {rows : List (Row × Nat)} {keepsValues : Bool} {predicates : List (Text × Nat)}
  {labels : List Text}

theorem rows_ofRows : (ofRows rows keepsValues predicates labels).rows =
    (ofRows rows keepsValues predicates labels).contexts := by
  rw [EventIndex.rows]
  split
  next h =>
    have hlength := congrArg List.length h
    rw [h]
    simp only [ofRows, List.length_map, List.length_singleton] at hlength ⊢
    rw [hlength]
    rfl
  next => rfl

end EventIndex

namespace Row

variable (κ : Type) [Scalar κ]

def scalars (r : Row) : List κ :=
  match r.values with
  | none => r.context.map fun _ => 1
  | some values => values.map Scalar.ofBinary64

def features (r : Row) : List (Nat × κ) := r.context.zip (r.scalars κ)

variable {keepsValues : Bool} {r : Row}

theorem Regular.length_scalars (h : r.Regular keepsValues) :
    (r.scalars κ).length = r.context.length := by
  rw [scalars]
  cases hv : r.values with
  | none => exact List.length_map _
  | some values => rw [List.length_map, h.length_values values hv]

theorem map_ofBinary64_congr {κ : Type} [ExactScalar κ] {xs ys : List Binary64}
    (h : valuesEqual xs ys = true) :
    (xs.map Scalar.ofBinary64 : List κ) = ys.map Scalar.ofBinary64 := by
  induction xs generalizing ys with
  | nil =>
    cases ys with
    | nil => rfl
    | cons y ys => simp [valuesEqual] at h
  | cons x xs ih =>
    cases ys with
    | nil => simp [valuesEqual] at h
    | cons y ys =>
      rw [valuesEqual, Bool.and_eq_true] at h
      rw [List.map_cons, List.map_cons, Binary64.ofBinary64_congr h.1, ih h.2]

theorem features_congr {κ : Type} [ExactScalar κ] {a b : Row} (h : a.equals b = true) :
    a.features κ = b.features κ := by
  rw [equals, Bool.and_eq_true, Bool.and_eq_true, beq_iff_eq, beq_iff_eq] at h
  obtain ⟨⟨-, hcontext⟩, hvalues⟩ := h
  rw [features, features, scalars, scalars, hcontext]
  cases hva : a.values with
  | none =>
    cases hvb : b.values with
    | none => rfl
    | some ys => simp [hva, hvb, optionalEqual] at hvalues
  | some xs =>
    cases hvb : b.values with
    | none => simp [hva, hvb, optionalEqual] at hvalues
    | some ys =>
      rw [hva, hvb] at hvalues
      exact congrArg b.context.zip (map_ofBinary64_congr hvalues)

/-- What a row adds to what is observed for a predicate and an outcome. -/
def share (κ : Type) [ExactScalar κ] (p o : Nat) (r : Row) : κ :=
  if r.outcome = o then Example.amount p (r.features κ) else 0

theorem share_congr {κ : Type} [ExactScalar κ] {a b : Row} (h : a.equals b = true) (p o : Nat) :
    a.share κ p o = b.share κ p o := by
  rw [share, share, outcome_eq_of_equals h, features_congr h]

theorem Regular.length_features (h : r.Regular keepsValues) :
    (r.features κ).length = r.context.length := by
  rw [features, List.length_zip, h.length_scalars κ, Nat.min_self]

end Row

namespace EventIndex

variable {κ : Type}

def allExamples (κ : Type) [Scalar κ] (x : EventIndex) : List (Example κ) :=
  (x.features κ).zipWith
    (fun fs (o, n) => ⟨fs, outcomePlace x.labels.length o, Scalar.ofInt n⟩)
    (x.outcomes.zip (stretch x.outcomes.length x.counts))

def scalars (κ : Type) [Scalar κ] (x : EventIndex) : List κ :=
  match x.values with
  | none => (x.contexts.flatten.map Int.toNat).map fun _ => 1
  | some vs => vs.flatten.map Scalar.ofBinary64

theorem features_eq [Scalar κ] (x : EventIndex) : x.features κ =
    (cut (x.rows.map List.length) ((x.contexts.flatten.map Int.toNat).zip (x.scalars κ))).map
      Example.combine := rfl

theorem examples_eq [Scalar κ] (x : EventIndex) :
    x.examples κ = x.check.map fun _ => x.allExamples κ := by
  rw [examples]
  cases x.check <;> rfl

variable {rows : List (Row × Nat)} {keepsValues : Bool} {predicates : List (Text × Nat)}
  {labels : List Text}

theorem scalars_ofRows [Scalar κ] (h : ∀ r ∈ rows, r.1.Regular keepsValues) :
    (ofRows rows keepsValues predicates labels).scalars κ =
      (rows.map fun r => r.1.scalars κ).flatten := by
  cases keepsValues with
  | false =>
    have hrow : ∀ r ∈ rows, r.1.scalars κ = r.1.context.map fun _ => 1 := by
      intro r hr
      have hnone := Option.isSome_eq_false_iff.1 (h r hr).isSome_values
      rw [Row.scalars, Option.isNone_iff_eq_none.1 hnone]
    rw [List.map_congr_left hrow]
    simp [scalars, ofRows, List.map_flatten, Function.comp_def]
  | true =>
    have hrow : ∀ r ∈ rows, r.1.scalars κ = (r.1.values.getD []).map Scalar.ofBinary64 := by
      intro r hr
      obtain ⟨values, hv⟩ := Option.isSome_iff_exists.1 (h r hr).isSome_values
      rw [Row.scalars, hv]
      rfl
    rw [List.map_congr_left hrow]
    simp [scalars, ofRows, List.map_flatten, Function.comp_def]

theorem features_ofRows [Scalar κ] (h : ∀ r ∈ rows, r.1.Regular keepsValues) :
    (ofRows rows keepsValues predicates labels).features κ =
      rows.map fun r => Example.combine (r.1.features κ) := by
  have hplaces : (ofRows rows keepsValues predicates labels).contexts.flatten.map Int.toNat =
      (rows.map fun r => r.1.context).flatten := by
    simp [ofRows, List.map_flatten, Function.comp_def]
  have hheights : (ofRows rows keepsValues predicates labels).rows.map List.length =
      (rows.map fun r => r.1.features κ).map List.length := by
    rw [rows_ofRows]
    simp only [ofRows, List.map_map]
    apply List.map_congr_left
    intro r hr
    exact (List.length_map _).trans ((h r hr).length_features κ).symm
  have hpairs := zip_flatten_map rows (fun r => r.1.context) (fun r => r.1.scalars κ)
    fun r hr => ((h r hr).length_scalars κ).symm
  rw [features_eq, hplaces, scalars_ofRows h, hpairs, hheights]
  exact (congrArg (List.map Example.combine) (cut_flatten _)).trans (List.map_map ..)

theorem allExamples_ofRows [ExactScalar κ] (h : ∀ r ∈ rows, r.1.Regular keepsValues) :
    (ofRows rows keepsValues predicates labels).allExamples κ = rows.map fun r =>
      ⟨Example.combine (r.1.features κ), r.1.outcome, (r.2 : κ)⟩ := by
  have hcounts : stretch (ofRows rows keepsValues predicates labels).outcomes.length
      (ofRows rows keepsValues predicates labels).counts =
      (ofRows rows keepsValues predicates labels).counts :=
    stretch_of_length (by simp [ofRows])
  have hexample : ∀ r ∈ rows, (⟨Example.combine (r.1.features κ),
      outcomePlace labels.length r.1.outcome, Scalar.ofInt r.2⟩ : Example κ) =
      ⟨Example.combine (r.1.features κ), r.1.outcome, (r.2 : κ)⟩ := by
    intro r _
    rw [ExactScalar.ofInt_eq, Int.cast_natCast, outcomePlace, if_neg (by omega), Int.toNat_natCast]
  rw [allExamples, features_ofRows h, hcounts]
  simp only [ofRows, List.zip_map', List.zipWith_map, List.zipWith_self]
  exact List.map_congr_left hexample

def observed (κ : Type) [Scalar κ] (x : EventIndex) : Array (List κ) :=
  Scaling.observed x.predicates.length x.labels.length (x.allExamples κ)

theorem observed_ofRows [ExactScalar κ] (h : ∀ r ∈ rows, r.1.Regular keepsValues) :
    (ofRows rows keepsValues predicates labels).observed κ =
      Scaling.grid predicates.length labels.length
        fun p o => Indexing.weigh (Row.share κ p o) rows := by
  rw [observed, allExamples_ofRows h, Scaling.observed_eq_grid]
  simp only [ofRows, List.length_map]
  apply Scaling.grid_congr
  intro p o
  rw [List.map_map, Indexing.weigh]
  congr 1
  apply List.map_congr_left
  intro r _
  rw [Function.comp_apply, Example.amount_combine, nsmul_eq_mul, Row.share]
  by_cases ho : r.1.outcome = o
  · simp [ho, mul_comm]
  · simp [ho]

end EventIndex

theorem Scaling.ofIndex_eq_ok_iff {κ : Type} [Scalar κ] {p : Plan} {x : EventIndex} {s : Scaling κ} :
    ofIndex κ p x = .ok s ↔ x.check = .ok () ∧
      s = .ofExamples x.predicates.length x.labels.length (p.replacement.map Scalar.ofBinary64)
        (x.allExamples κ) := by
  rw [ofIndex, EventIndex.examples_eq]
  cases x.check with
  | error fault => exact ⟨nofun, nofun⟩
  | ok _ => exact ⟨fun h => ⟨rfl, (Except.ok.inj h).symm⟩, fun h => congrArg Except.ok h.2.symm⟩

end MaxEnt
