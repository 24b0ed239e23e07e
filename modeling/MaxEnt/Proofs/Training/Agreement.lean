import MaxEnt.Proofs.Index.Sorted
import MaxEnt.Proofs.Index.Tally
import MaxEnt.Proofs.Training.Inference

namespace MaxEnt

theorem Scalar.ofBinary64_one {κ : Type} [ExactScalar κ] : (ofBinary64 .one : κ) = 1 := by
  have hvalue := ExactScalar.ofBinary64_eq (κ := κ) .one (by decide)
  have hnumerator : Binary64.one.numerator = Binary64.one.ratio.2 := by decide
  have hdenominator : (Binary64.one.ratio.2 : κ) ≠ 0 :=
    Nat.cast_ne_zero.2 Binary64.one.denominator_pos.ne'
  rw [hnumerator, Int.cast_natCast] at hvalue
  exact mul_right_cancel₀ hdenominator (hvalue.trans (one_mul _).symm)

def Event.pairs (κ : Type) [Scalar κ] (e : Event) : List (Text × κ) :=
  match e.features with
  | .plain names => names.map fun name => (name, 1)
  | .valued pairs => pairs.map fun q => (q.1, Scalar.ofBinary64 q.2)

theorem valued_context {κ : Type} [Scalar κ] (e : Event) :
    valued e.context (e.values.map (List.map (Scalar.ofBinary64 (κ := κ)))) =
      (e.pairs κ).map fun q => (q.1, some q.2) := by
  obtain ⟨outcome, features⟩ := e
  cases features with
  | plain names => simp [Event.context, Event.values, Event.pairs, valued, Function.comp_def]
  | valued pairs =>
    simp only [Event.context, Event.values, Event.pairs, valued, Option.map_some]
    induction pairs with
    | nil => rfl
    | cons q pairs ih =>
      simp only [List.map_cons, valued.pair]
      rw [ih]

theorem Scaling.Tells.probabilities {κ : Type} [ExactScalar κ] {m : Model κ} {names : List Text}
    {g : Nat → Nat → Option κ} {w : Nat → Nat → κ} (h : Tells m names g w) (hw : Inactive g w)
    (e : Event) : m.probabilities e.context (e.values.map (List.map Scalar.ofBinary64)) =
      .ok (Scalar.softmax ((List.range m.labels.length).map fun o =>
        ((placed names (e.pairs κ)).map fun f => f.2 * w f.1 o).sum)) := by
  rw [m.probabilities_eq (valued_context e)]
  refine congrArg (Except.ok ∘ Scalar.softmax) (List.map_congr_left fun o ho => ?_)
  exact h.score_eq hw (List.mem_range.1 ho) _

namespace Indexing

def eventRow (i : Indexing) (ix : Indexer) (e : Event) : Row :=
  row i.index.predicates i.index.labels
    (restrict i.index.predicates (prepare ix.keepsValues e))

section

variable {κ : Type} [Scalar κ]

theorem features_row (names labels : List Text) (e : Event) :
    (row names labels e).features κ = (e.pairs κ).map fun q => (names.idxOf q.1, q.2) := by
  obtain ⟨outcome, features⟩ := e
  cases features with
  | plain context =>
    have hzip : (context.map names.idxOf).zip (context.map fun _ => (1 : κ)) =
        context.map fun name => (names.idxOf name, 1) := List.zip_map'
    simp only [row, Row.features, Row.scalars, Event.context, Event.values, Event.pairs, List.map_map]
    exact hzip
  | valued pairs =>
    simp only [row, Row.features, Row.scalars, Event.context, Event.values, Event.pairs, List.map_map,
      List.zip_map']
    rfl

theorem pairs_restrict (names : List Text) (e : Event) :
    (restrict names e).pairs κ = (e.pairs κ).filter fun q => names.contains q.1 := by
  obtain ⟨outcome, features⟩ := e
  cases features <;> simp only [restrict, Features.filter, Event.pairs, List.filter_map] <;> rfl

end

/-- Preparing an event for an indexer that takes its values as they are changes none of them. -/
theorem pairs_prepare {κ : Type} [ExactScalar κ] {keepsValues : Bool} {e : Event}
    (h : keepsValues = false → e.values = none) : (prepare keepsValues e).pairs κ = e.pairs κ := by
  obtain ⟨outcome, features⟩ := e
  cases keepsValues with
  | false =>
    cases features with
    | plain names => rfl
    | valued pairs => cases h rfl
  | true =>
    cases features with
    | plain names =>
      simp only [prepare, Features.withValues, Event.pairs, if_true, List.map_map]
      exact List.map_congr_left fun name _ => congrArg (Prod.mk name) Scalar.ofBinary64_one
    | valued pairs => rfl

theorem features_eventRow {κ : Type} [ExactScalar κ] (i : Indexing) {ix : Indexer} {e : Event}
    (h : ix.keepsValues = false → e.values = none) :
    (i.eventRow ix e).features κ = placed i.index.predicates (e.pairs κ) := by
  rw [eventRow, features_row, pairs_restrict, pairs_prepare h, placed]

/-- In an example the values are added up by predicate; the sums are those over the event's pairs. -/
theorem sum_eventRow {κ : Type} [ExactScalar κ] {i : Indexing} {ix : Indexer} {e : Event} {a : Row}
    (ha : a.equals (i.eventRow ix e) = true) (h : ix.keepsValues = false → e.values = none)
    (c : Nat → κ) : ((Example.combine (a.features κ)).map fun f => f.2 * c f.1).sum =
      ((placed i.index.predicates (e.pairs κ)).map fun f => f.2 * c f.1).sum := by
  rw [Example.sum_combine, Row.features_congr ha, features_eventRow i h]

section

variable {ix : Indexer} {events : List Event} (cutoff : Int)

theorem eventRow_mem {sort : Bool} {e : Event} (he : e ∈ events)
    (hkept : e.context.any (build ⟨ix, cutoff, sort⟩ events events).index.predicates.contains = true) :
    (build ⟨ix, cutoff, sort⟩ events events).eventRow ix e ∈ keptRows ⟨ix, cutoff, sort⟩ events := by
  have hlabels : (build ⟨ix, cutoff, sort⟩ events events).index.labels = keptLabels cutoff events :=
    labels_build
  rw [eventRow, hlabels]
  exact List.mem_map_of_mem (List.mem_filter.2 ⟨he, hkept⟩)

theorem place_lt_of_mem_keptRows {s : IndexSettings} {r : Row} (hr : r ∈ keptRows s events) {place : Nat}
    (hplace : place ∈ r.context) : place < (keptPredicates s.cutoff events).length := by
  obtain ⟨e, -, rfl⟩ := List.mem_map.1 hr
  obtain ⟨name, hname, rfl⟩ := List.mem_map.1 hplace
  rw [context_restrict, List.mem_filter, List.contains_iff_mem] at hname
  have hlt := List.idxOf_lt_length_iff.2 hname.2
  rwa [keptNames, List.length_map] at hlt

theorem place_lt_of_mem_allExamples {κ : Type} [ExactScalar κ] (h : Admissible ix events) (sort : Bool) :
    ∀ x ∈ (build ⟨ix, cutoff, sort⟩ events events).index.allExamples κ, ∀ f ∈ x.features,
      f.1 < (build ⟨ix, cutoff, sort⟩ events events).index.predicates.length := by
  obtain ⟨rows, hindex, hregular, hmem, -⟩ := exists_rows_build cutoff h sort
  rw [hindex, EventIndex.allExamples_ofRows hregular, List.forall_mem_map]
  intro row hrow
  apply Example.forall_mem_combine (P := (· < _))
  intro f hf
  have hlt := place_lt_of_mem_keptRows (hmem row hrow) (List.of_mem_zip hf).1
  rwa [EventIndex.ofRows, List.length_map]

end

/-- A model that was trained gives an event that was indexed the probabilities that training ended
with for the event's row. -/
theorem probabilities_train {κ : Type} [ExactScalar κ] (ix : Indexer) (hix : ix ≠ .twoPass)
    (cutoff : Int) (sort : Bool) (events : List Event) (hadmissible : Admissible ix events)
    (hvalues : ix.keepsValues = false → ∀ e ∈ events, e.values = none) :
    ∃ i, ofEvents ⟨ix, cutoff, sort⟩ events = .ok i ∧
      ∀ (p : Scaling.Plan) (m : Model κ) (r : Scaling.Result κ),
        Scaling.train κ p i.index = .ok (m, r) →
        ∃ s g w, Scaling.solve κ p i.index = .ok (s, r) ∧
          s.Shaped i.index.predicates.length g ∧
          r.weights = Scaling.grid i.index.predicates.length i.index.labels.length w ∧
          Scaling.Inactive g w ∧
          ∀ e ∈ events, e.context.any i.index.predicates.contains = true →
            (∃ (k : Nat) (a : Row) (n : Nat),
              i.index.seen[k]? = some (a, n) ∧ a.equals (i.eventRow ix e) = true) ∧
            ∀ (k : Nat) (a : Row) (n : Nat),
              i.index.seen[k]? = some (a, n) → a.equals (i.eventRow ix e) = true →
                ∃ probabilities, (s.probabilities r.weights)[k]? = some probabilities ∧
                  m.probabilities e.context (e.values.map (List.map Scalar.ofBinary64)) =
                    .ok probabilities := by
  obtain ⟨rows, hindex, hregular, hmem, hcover⟩ := exists_rows_build cutoff hadmissible sort
  refine ⟨_, ofEvents_eq_build hix hadmissible, fun p m r htrain => ?_⟩
  obtain ⟨s, hsolve, hmodel⟩ := Scaling.train_ok htrain
  have hseen : (build ⟨ix, cutoff, sort⟩ events events).index.seen = rows := by
    rw [hindex]
    exact EventIndex.seen_ofRows hregular _ _
  have hexamples : (build ⟨ix, cutoff, sort⟩ events events).index.allExamples κ =
      rows.map fun r => ⟨Example.combine (r.1.features κ), r.1.outcome, (r.2 : κ)⟩ := by
    rw [hindex, EventIndex.allExamples_ofRows hregular]
  have hplaces := place_lt_of_mem_allExamples (κ := κ) cutoff hadmissible sort
  obtain ⟨hall, houtcomes, g, w, hshaped, hweights, hinactive⟩ := Scaling.solve_grid hsolve hplaces
  have hnodup := (firstSeen_keptPredicates cutoff events).nodup
  obtain ⟨hlabels, htells⟩ := Scaling.tells_of_model hshaped hnodup houtcomes hweights hmodel
  refine ⟨s, g, w, hsolve, hshaped, ?_, hinactive, fun e he hkept => ⟨?_, ?_⟩⟩
  · rw [hweights, houtcomes]
  · obtain ⟨row, hrow, hequals⟩ := hcover _ (eventRow_mem cutoff he hkept)
    obtain ⟨k, hk⟩ := List.mem_iff_getElem?.1 hrow
    exact ⟨k, row.1, row.2, hseen ▸ hk, hequals⟩
  · intro k a n hk ha
    have hexample : s.examples[k]? = some ⟨Example.combine (a.features κ), a.outcome, (n : κ)⟩ := by
      rw [hseen] at hk
      rw [hall, hexamples, List.getElem?_map, hk]
      rfl
    have hscore := fun o => sum_eventRow ha (fun hkeeps => hvalues hkeeps e he) fun p => w p o
    refine ⟨_, ?_, htells.probabilities hinactive e⟩
    rw [Scaling.probabilities, List.getElem?_map, hexample, Option.map_some, hweights,
      hshaped.scores_grid w (List.mem_of_getElem? hexample), houtcomes, hlabels]
    simp only [hscore]

/-- An event with a predicate twice, one below a cutoff of two and one that never has a value but
zero; and two others. -/
def mixedEvents : List Event :=
  [⟨"A", .valued [("x", ⟨0x4000000000000000⟩), ("rare", .one), ("x", .one), ("nil", .zero)]⟩,
    ⟨"B", .valued [("nil", .zero), ("x", ⟨0x3FE0000000000000⟩)]⟩, ⟨"A", .plain ["x"]⟩]

theorem admissible_mixedEvents : Admissible .onePassRealValue mixedEvents := by
  intro _
  decide

theorem index_mixedEvents : (build ⟨.onePassRealValue, 2, true⟩ mixedEvents mixedEvents).index =
    .ofRows [(⟨0, [0], some [.one]⟩, 1), (⟨0, [0, 0, 1], some [⟨0x4000000000000000⟩, .one, .zero]⟩, 1),
      (⟨1, [1, 0], some [.zero, ⟨0x3FE0000000000000⟩]⟩, 1)] true
      [(↑ "x", 4), (↑ "nil", 2)] [↑ "A", ↑ "B"] := by
  have hpredicates : keptPredicates 2 mixedEvents = [(↑ "x", 4), (↑ "nil", 2)] := by cbv
  have hlabels : keptLabels 2 mixedEvents = [↑ "A", ↑ "B"] := by cbv
  have hrows : keptRows ⟨.onePassRealValue, 2, true⟩ mixedEvents =
      [⟨0, [0, 0, 1], some [⟨0x4000000000000000⟩, .one, .zero]⟩,
        ⟨1, [1, 0], some [.zero, ⟨0x3FE0000000000000⟩]⟩, ⟨0, [0], some [.one]⟩] := by cbv
  have hsorted : sortAndMerge [⟨0, [0, 0, 1], some [⟨0x4000000000000000⟩, .one, .zero]⟩,
      ⟨1, [1, 0], some [.zero, ⟨0x3FE0000000000000⟩]⟩, ⟨0, [0], some [.one]⟩] =
      [(⟨0, [0], some [.one]⟩, 1), (⟨0, [0, 0, 1], some [⟨0x4000000000000000⟩, .one, .zero]⟩, 1),
        (⟨1, [1, 0], some [.zero, ⟨0x3FE0000000000000⟩]⟩, 1)] := by cbv
  rw [index_sorted, hpredicates, hlabels, hrows, hsorted]
  rfl

theorem probabilities_train_mixedEvents :
    letI : ExactScalar ℝ := .real Real.exp Real.log
    Admissible .onePassRealValue mixedEvents ∧
      ∃ i, ofEvents ⟨.onePassRealValue, 2, true⟩ mixedEvents = .ok i ∧
        ∃ m r s, Scaling.train ℝ ⟨5, none, none⟩ i.index = .ok (m, r) ∧
          Scaling.solve ℝ ⟨5, none, none⟩ i.index = .ok (s, r) ∧
          ∀ e ∈ mixedEvents, ∃ (k : Nat) (a : Row) (n : Nat) (probabilities : List ℝ),
            i.index.seen[k]? = some (a, n) ∧ a.equals (i.eventRow .onePassRealValue e) = true ∧
            (s.probabilities r.weights)[k]? = some probabilities ∧
            m.probabilities e.context (e.values.map (List.map Scalar.ofBinary64)) =
              .ok probabilities := by
  let _ : ExactScalar ℝ := .real Real.exp Real.log
  have h := admissible_mixedEvents
  refine ⟨h, ?_⟩
  obtain ⟨i, hi, htrained⟩ := probabilities_train (κ := ℝ) .onePassRealValue (by decide) 2 true
    mixedEvents h (fun hkeeps => by cases hkeeps)
  cases hi.symm.trans (ofEvents_eq_build (by decide) h)
  have hcheck : (build ⟨.onePassRealValue, 2, true⟩ mixedEvents mixedEvents).index.check = .ok () := by
    rw [index_mixedEvents]
    decide +kernel
  obtain ⟨m, r, htrain⟩ := Scaling.exists_train (κ := ℝ) ⟨5, none, none⟩ hcheck
    (place_lt_of_mem_allExamples 2 h true) (firstSeen_keptPredicates 2 mixedEvents).nodup
    (by rw [index_mixedEvents]; decide) (by rw [index_mixedEvents]; decide)
  obtain ⟨s, -, -, hsolve, -, -, -, hevents⟩ := htrained _ m r htrain
  refine ⟨_, hi, m, r, s, htrain, hsolve, fun e he => ?_⟩
  have hkept : ∀ e ∈ mixedEvents, e.context.any
      (build ⟨.onePassRealValue, 2, true⟩ mixedEvents mixedEvents).index.predicates.contains = true := by
    rw [index_mixedEvents]
    decide
  obtain ⟨⟨k, a, n, hk, ha⟩, hagree⟩ := hevents e he (hkept e he)
  obtain ⟨probabilities, hrow, hmodel⟩ := hagree k a n hk ha
  exact ⟨k, a, n, probabilities, hk, ha, hrow, hmodel⟩

end Indexing

end MaxEnt
