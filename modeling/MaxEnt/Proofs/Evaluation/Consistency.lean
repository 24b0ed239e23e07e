import Mathlib
import MaxEnt.Proofs.Evaluation.Figures
import MaxEnt.Proofs.Evaluation.Verdict
import MaxEnt.Proofs.Model.Ranking

namespace MaxEnt

theorem Text.withoutNulls_eq {label : Text} (h : label.getLast? ≠ some 0) :
    label.withoutNulls = label := by
  rw [withoutNulls, dropLastWhile]
  cases hreverse : label.reverse with
  | nil => rw [List.dropWhile_nil, List.reverse_nil, List.reverse_eq_nil_iff.1 hreverse]
  | cons c cs =>
    have hlast : label.getLast? = some c := by rw [← List.head?_reverse, hreverse, List.head?_cons]
    have hc : c ≠ 0 := by
      rintro rfl
      exact h hlast
    rw [List.dropWhile_cons_of_neg (by simpa using hc), ← hreverse, List.reverse_reverse]

theorem Evaluation.ofVerdicts_eq {κ : Type} [Scalar κ] {vs : List Verdict} {labels : List Text}
    (hactual : ∀ v ∈ vs, v.actual ∈ labels) (hpredicted : ∀ v ∈ vs, v.predicted ∈ labels)
    (h : ∀ label ∈ labels, label.getLast? ≠ some 0) :
    (ofVerdicts vs labels : Evaluation κ) = ofCompared vs labels := by
  have hlabels : labels.map Text.withoutNulls = labels.map id :=
    List.map_congr_left fun label hlabel => Text.withoutNulls_eq (h label hlabel)
  have hvs : vs.map Verdict.withoutNulls = vs.map id := by
    refine List.map_congr_left fun v hv => ?_
    rw [Verdict.withoutNulls, Text.withoutNulls_eq (h _ (hactual v hv)),
      Text.withoutNulls_eq (h _ (hpredicted v hv))]
    rfl
  rw [List.map_id] at hlabels hvs
  rw [ofVerdicts, hlabels, hvs]
  rfl

variable {κ : Type} [LinearOrder κ] [OrderedScalar κ]

/-- The figures of an evaluation agree with the model's best outcomes for the events, with each other
and with the distribution of the events' outcomes. The confusion has a row and a column for each
label. -/
structure Evaluation.Consistent (v : Evaluation κ) (m : Model κ) (events : List Event)
    (d : Distribution) : Prop where
  labels_sorted : v.labels.Pairwise (· < ·)
  mem_labels : ∀ label, label ∈ v.labels ↔ label ∈ m.labels ∨ label ∈ events.map Event.outcome
  confusion : v.confusion = v.labels.map fun actual => v.labels.map fun predicted =>
    events.countP fun e => e.outcome == actual && m.bestFor? e == some predicted
  total : v.total = events.length
  sum_confusion : (v.confusion.map List.sum).sum = v.total
  unknown_columns : ∀ row ∈ v.confusion, ∀ (place : Nat) label, v.labels[place]? = some label →
    label ∉ m.labels → row[place]? = some 0
  accuracy : v.accuracy = (trace v.confusion : κ) / (v.total : κ)
  support : ∀ (place : Nat) label row, v.labels[place]? = some label → v.confusion[place]? = some row →
    ∃ f, v.report.get? label = some (.figures f) ∧ f.support = row.sum ∧
      f.support = (d.counts.lookup label).getD 0
  f1 : ∃ f, v.report.get? ↑ "weighted avg" = some (.figures f) ∧ v.f1 = f.f1
  counts : d.total = v.total ∧ (d.counts.map Prod.snd).sum = v.total
  percentages : ((d.percentages κ).map Prod.snd).sum = 100

namespace Model

variable {m : Model κ} {events : List Event} {predicted : Event → Text}

def verdicts (predicted : Event → Text) (events : List Event) : List Verdict :=
  events.map fun e => ⟨e.outcome, predicted e⟩

theorem confused_verdicts (hbest : ∀ e, m.bestFor? e = some (predicted e)) (actual label : Text) :
    Verdicts.confused (verdicts predicted events) actual label =
      events.countP fun e => e.outcome == actual && m.bestFor? e == some label := by
  rw [Verdicts.confused_eq, verdicts, List.countP_map]
  apply List.countP_congr
  intro e _
  simp [hbest]

theorem consistent_ofCompared (hlabels : ∀ e, predicted e ∈ m.labels)
    (hbest : ∀ e, m.bestFor? e = some (predicted e)) (hne : events ≠ [])
    (hkeys : ∀ label ∈ m.labels ++ events.map Event.outcome, label ∉ Evaluation.summaryKeys) :
    (Evaluation.ofCompared (verdicts predicted events)
      (Text.sorted (m.labels ++ events.map Event.outcome))).Consistent m events
      (Distribution.ofLabels (events.map Event.outcome)) := by
  have hmem : ∀ label, label ∈ Text.sorted (m.labels ++ events.map Event.outcome) ↔
      label ∈ m.labels ∨ label ∈ events.map Event.outcome := fun label =>
    Text.mem_sorted.trans List.mem_append
  have hnodup := Text.nodup_sorted (m.labels ++ events.map Event.outcome)
  have hactual : ∀ v ∈ verdicts predicted events,
      v.actual ∈ Text.sorted (m.labels ++ events.map Event.outcome) :=
    List.forall_mem_map.2 fun e he => (hmem _).2 (.inr (List.mem_map_of_mem he))
  have hpredicted : ∀ v ∈ verdicts predicted events,
      v.predicted ∈ Text.sorted (m.labels ++ events.map Event.outcome) :=
    List.forall_mem_map.2 fun e _ => (hmem _).2 (.inl (hlabels e))
  have hlength : (verdicts predicted events).length = events.length := List.length_map _
  have hverdicts : verdicts predicted events ≠ [] := mt List.map_eq_nil_iff.1 hne
  have hkeys' : ∀ label ∈ Text.sorted (m.labels ++ events.map Event.outcome),
      label ∉ Evaluation.summaryKeys := fun label h => hkeys label (Text.mem_sorted.1 h)
  have houtcomes : (verdicts predicted events).map Verdict.actual = events.map Event.outcome :=
    List.map_map
  have htotal : (Distribution.ofLabels (events.map Event.outcome)).total =
      (verdicts predicted events).length := by
    rw [Distribution.total_ofLabels, List.length_map, hlength]
  constructor
  case labels_sorted => exact Text.pairwise_sorted _
  case mem_labels => exact hmem
  case confusion =>
    refine (Verdicts.confusion_eq _ hnodup).trans ?_
    exact List.map_congr_left fun actual _ => List.map_congr_left fun label _ =>
      confused_verdicts hbest actual label
  case total => exact hlength
  case sum_confusion => exact Evaluation.sum_confusion hnodup hactual hpredicted
  case unknown_columns =>
    intro row hrow place label hlabel hunknown
    refine Evaluation.getElem?_confusion_eq_zero hnodup hrow hlabel ?_
    exact List.forall_mem_map.2 fun e _ heq => hunknown (heq ▸ hlabels e)
  case accuracy => exact Evaluation.ratio_correct hnodup hactual hverdicts
  case support =>
    intro place label row hlabel hrow
    obtain ⟨f, hf, hsum, hcount⟩ :=
      Evaluation.support_reportOf (κ := κ) hnodup hkeys' hpredicted hlabel hrow
    exact ⟨f, hf, hsum, by rw [hcount, houtcomes, Distribution.lookup_counts]⟩
  case f1 => exact Evaluation.f1_reportOf hnodup hkeys' hactual hpredicted
  case counts => exact ⟨htotal, htotal⟩
  case percentages =>
    apply Distribution.sum_percentages
    rw [htotal]
    exact mt List.length_eq_zero_iff.1 hverdicts

/-- Where no label ends in a NUL and none is called as a summary of the report, the figures of an
evaluation agree with each other. -/
theorem evaluate_consistent (m : Model κ) (dataset : Text) (events : List Event) (hne : events ≠ [])
    (hnulls : ∀ label ∈ m.labels ++ events.map Event.outcome, label.getLast? ≠ some 0)
    (hkeys : ∀ label ∈ m.labels ++ events.map Event.outcome, label ∉ Evaluation.summaryKeys) :
    ∃ v, m.evaluate dataset events = .ok v ∧
      v.Consistent m events (Distribution.ofLabels (events.map Event.outcome)) := by
  obtain ⟨predicted, hlabels, hbest, hvs⟩ := m.exists_mapM_verdict events
  refine ⟨_, evaluate_eq hvs (mt List.map_eq_nil_iff.1 hne) dataset, ?_⟩
  rw [Evaluation.ofVerdicts_eq]
  · exact consistent_ofCompared hlabels hbest hne hkeys
  · exact List.forall_mem_map.2 fun e he =>
      Text.mem_sorted.2 (List.mem_append_right _ (List.mem_map_of_mem he))
  · exact List.forall_mem_map.2 fun e _ => Text.mem_sorted.2 (List.mem_append_left _ (hlabels e))
  · exact fun label hlabel => hnulls label (Text.mem_sorted.1 hlabel)

noncomputable def twoLabels : Model ℝ where
  labels := [↑ "spam", ↑ "ham"]
  predicates := .ofList [(↑ "x", ⟨[(0, 1)]⟩), (↑ "y", ⟨[(1, 1)]⟩)]
  two_le := by decide
  labels_nodup := by decide
  inRange := by decide

def strangeEvents : List Event :=
  [⟨↑ "ham", .plain [↑ "x"]⟩, ⟨↑ "eggs", .valued [(↑ "y", .one), (↑ "new", .zero)]⟩]

theorem evaluate_consistent_strangeEvents :
    letI : OrderedScalar ℝ := .real Real.exp Real.log
    strangeEvents ≠ [] ∧
      (∀ label ∈ twoLabels.labels ++ strangeEvents.map Event.outcome, label.getLast? ≠ some 0) ∧
      (∀ label ∈ twoLabels.labels ++ strangeEvents.map Event.outcome,
        label ∉ Evaluation.summaryKeys) ∧
      ∃ v, twoLabels.evaluate ↑ "test" strangeEvents = .ok v ∧
        v.Consistent twoLabels strangeEvents (.ofLabels (strangeEvents.map Event.outcome)) := by
  let _ : OrderedScalar ℝ := .real Real.exp Real.log
  have hne : strangeEvents ≠ [] := by decide
  have hnulls : ∀ label ∈ twoLabels.labels ++ strangeEvents.map Event.outcome,
      label.getLast? ≠ some 0 := by decide
  have hkeys : ∀ label ∈ twoLabels.labels ++ strangeEvents.map Event.outcome,
      label ∉ Evaluation.summaryKeys := by decide
  exact ⟨hne, hnulls, hkeys, twoLabels.evaluate_consistent _ _ hne hnulls hkeys⟩

theorem bestFor?_twoLabels : letI : OrderedScalar ℝ := .real Real.exp Real.log
    ∀ outcome, twoLabels.bestFor? ⟨outcome, .plain [↑ "y"]⟩ = some ↑ "ham" := by
  let _ : OrderedScalar ℝ := .real Real.exp Real.log
  intro outcome
  have henough : Enough [↑ "y"] (none : Option (List ℝ)) := nofun
  have hget : twoLabels.predicates.get? ↑ "y" = some ⟨[(1, 1)]⟩ := rfl
  have hps : twoLabels.probabilities [↑ "y"] none = _ := twoLabels.probabilities_eq (valued_eq henough)
  obtain ⟨place, label, hlabel, hbest, hgreatest, -⟩ := RankedBy.best (rankedBy_softmax Real.exp_pos
    Real.exp_strictMono Real.exp_zero (twoLabels.score (withValues [↑ "y"] none))
    (Nat.zero_lt_of_lt twoLabels.two_le))
  have hle := hgreatest 1 (by decide)
  have hlabel' : twoLabels.bestFor? ⟨outcome, .plain [↑ "y"]⟩ = some label := by
    rw [bestFor?]
    simp only [Event.context, Event.values, Option.map_none, hps, hbest]
    rfl
  have hplace : place < 2 := (List.getElem?_eq_some_iff.1 hlabel).1
  obtain rfl | rfl : place = 0 ∨ place = 1 := by omega
  · -- The scores are 0 and 1.
    simp only [withValues, score, List.map_cons, List.map_nil, List.sum_cons, weightOf, hget,
      Predicate.listed] at hle
    norm_num at hle
  · exact hlabel'.trans hlabel.symm

/-- The second outcome is the first with a NUL after it. -/
def nullEvents : List Event :=
  [⟨↑ "ham", .plain [↑ "y"]⟩, ⟨Text.ofString "ham" ++ [0], .plain [↑ "y"]⟩]

theorem not_consistent_nullEvents :
    letI : OrderedScalar ℝ := .real Real.exp Real.log
    nullEvents ≠ [] ∧
      (∀ label ∈ twoLabels.labels ++ nullEvents.map Event.outcome, label ∉ Evaluation.summaryKeys) ∧
      ∃ v, twoLabels.evaluate ↑ "test" nullEvents = .ok v ∧
        v.labels = [↑ "ham", Text.ofString "ham" ++ [0], ↑ "spam"] ∧
        v.confusion = [[0, 0, 0], [0, 2, 0], [0, 0, 0]] ∧ v.accuracy = 1 ∧
        ¬v.Consistent twoLabels nullEvents (.ofLabels (nullEvents.map Event.outcome)) := by
  let _ : OrderedScalar ℝ := .real Real.exp Real.log
  obtain ⟨predicted, -, hbest, hvs⟩ := twoLabels.exists_mapM_verdict nullEvents
  have ha : ∀ outcome, predicted ⟨outcome, .plain [↑ "y"]⟩ = ↑ "ham" := fun outcome =>
    Option.some.inj ((hbest _).symm.trans (bestFor?_twoLabels outcome))
  have hverdicts : nullEvents.map (fun e => (⟨e.outcome, predicted e⟩ : Verdict)) =
      [⟨↑ "ham", ↑ "ham"⟩, ⟨Text.ofString "ham" ++ [0], ↑ "ham"⟩] := by
    simp only [nullEvents, List.map_cons, List.map_nil, ha]
  rw [hverdicts] at hvs
  have hlabels : Text.sorted (twoLabels.labels ++ nullEvents.map Event.outcome) =
      [↑ "ham", Text.ofString "ham" ++ [0], ↑ "spam"] := by cbv
  have hcompared : Verdicts.confusion [⟨↑ "ham", ↑ "ham"⟩, ⟨↑ "ham", ↑ "ham"⟩] [↑ "ham", ↑ "ham", ↑ "spam"] =
      [[0, 0, 0], [0, 2, 0], [0, 0, 0]] := by cbv
  have hconfusion : (Evaluation.ofVerdicts [⟨↑ "ham", ↑ "ham"⟩, ⟨Text.ofString "ham" ++ [0], ↑ "ham"⟩]
      [↑ "ham", Text.ofString "ham" ++ [0], ↑ "spam"] : Evaluation ℝ).confusion =
        [[0, 0, 0], [0, 2, 0], [0, 0, 0]] := hcompared
  have haccuracy : (Evaluation.ofVerdicts [⟨↑ "ham", ↑ "ham"⟩, ⟨Text.ofString "ham" ++ [0], ↑ "ham"⟩]
      [↑ "ham", Text.ofString "ham" ++ [0], ↑ "spam"] : Evaluation ℝ).accuracy = 1 := by
    change (((2 : Int) : ℝ) / ((2 : Int) : ℝ)) = 1
    norm_num
  have hevaluation := evaluate_eq hvs (by simp) ↑ "test"
  rw [hlabels] at hevaluation
  refine ⟨by decide, by decide, _, hevaluation, rfl, hconfusion, haccuracy, fun h => ?_⟩
  -- The column of the label with the NUL is not empty, though the model does not know it.
  have hcolumn := h.unknown_columns [0, 2, 0] (hconfusion ▸ List.mem_cons_of_mem _ List.mem_cons_self)
    1 (Text.ofString "ham" ++ [0]) rfl (by decide)
  cases hcolumn

end Model

end MaxEnt
