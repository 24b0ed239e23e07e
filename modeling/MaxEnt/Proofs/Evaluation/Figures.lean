import Mathlib
import MaxEnt.Evaluation.Basic
import MaxEnt.Proofs.Evaluation.Counting
import MaxEnt.Proofs.Table

namespace MaxEnt

namespace Verdicts

variable (vs : List Verdict) {labels : List Text}

theorem confused_eq (actual predicted : Text) :
    confused vs actual predicted =
      vs.countP fun v => v.actual == actual && v.predicted == predicted := by
  rw [confused, List.count]
  apply List.countP_congr
  rintro ⟨a, p⟩ -
  simp

theorem lastOnes_eq (h : labels.Nodup) : lastOnes labels = labels.map some := by
  induction labels with
  | nil => rfl
  | cons label labels ih =>
    obtain ⟨hlabel, hlabels⟩ := List.nodup_cons.1 h
    rw [lastOnes, ih hlabels, List.map_cons, if_neg (by simpa using hlabel)]

theorem confusion_eq (h : labels.Nodup) :
    confusion vs labels = labels.map fun actual => labels.map (confused vs actual) := by
  simp only [confusion, lastOnes_eq h, List.map_map, Function.comp_def]

variable {vs}

theorem sum_confused (hnodup : labels.Nodup) (h : ∀ v ∈ vs, v.predicted ∈ labels) (actual : Text) :
    (labels.map (confused vs actual)).sum = support vs actual := by
  simp only [funext (confused_eq vs actual)]
  exact sum_map_countP hnodup (fun v : Verdict => v.actual == actual) Verdict.predicted
    fun v hv _ => h v hv

theorem support_eq_count (label : Text) : support vs label = (vs.map Verdict.actual).count label := by
  rw [support, List.count, List.countP_map]
  rfl

theorem sum_support (hnodup : labels.Nodup) (h : ∀ v ∈ vs, v.actual ∈ labels) :
    (labels.map (support vs)).sum = vs.length := by
  rw [funext support_eq_count, sum_map_count hnodup (List.forall_mem_map.2 h), List.length_map]

theorem sum_hits (hnodup : labels.Nodup) (h : ∀ v ∈ vs, v.actual ∈ labels) :
    (labels.map (hits vs)).sum = correct vs := by
  have hsum := sum_map_countP hnodup (fun v : Verdict => v.actual == v.predicted) Verdict.actual
    fun v hv _ => h v hv
  rw [correct, ← hsum]
  congr 1
  refine List.map_congr_left fun label _ => ?_
  rw [hits, confused_eq]
  apply List.countP_congr
  rintro ⟨a, p⟩ -
  simp only [Bool.and_eq_true, beq_iff_eq]
  constructor
  · rintro ⟨rfl, rfl⟩
    exact ⟨rfl, rfl⟩
  · rintro ⟨rfl, rfl⟩
    exact ⟨rfl, rfl⟩

theorem confused_eq_zero {predicted : Text} (h : ∀ v ∈ vs, v.predicted ≠ predicted) (actual : Text) :
    confused vs actual predicted = 0 := by
  rw [confused, List.count_eq_zero]
  exact fun hmem => h _ hmem rfl

theorem support_eq_zero {actual : Text} (h : ∀ v ∈ vs, v.actual ≠ actual) : support vs actual = 0 := by
  rw [support, List.countP_eq_zero]
  exact fun v hv heq => h v hv (beq_iff_eq.1 heq)

end Verdicts

def trace (rows : List (List Nat)) : Nat := (rows.mapIdx fun place row => row.getD place 0).sum

theorem trace_confused (vs : List Verdict) (labels : List Text) :
    trace (labels.map fun actual => labels.map (Verdicts.confused vs actual)) =
      (labels.map (Verdicts.hits vs)).sum := by
  rw [trace]
  congr 1
  apply List.ext_getElem
  · simp
  · intro place hplace _
    have hlt : place < labels.length := by simpa using hplace
    simp [hlt, Verdicts.hits]

namespace Figures

variable {κ : Type} [LinearOrder κ] [OrderedScalar κ]

theorem average_eq (weighted : List (Nat × κ)) :
    average weighted = (weighted.map fun q => (q.1 : κ) * q.2).sum /
      (((weighted.map Prod.fst).sum : Nat) : κ) := by
  simp only [average, Scalar.sum_eq_sum, ExactScalar.ofInt_eq, Int.cast_natCast]
  rfl

/-- Labels without support do not show in an average by support. -/
theorem averages_support_eq {vs : List Verdict} {labels labels' : List Text} (h : labels.Nodup)
    (h' : labels'.Nodup) (hsub : labels ⊆ labels') (hactual : ∀ v ∈ vs, v.actual ∈ labels) :
    (averages support (labels.map (ofLabel (κ := κ) vs))).f1 =
      (averages support (labels'.map (ofLabel (κ := κ) vs))).f1 := by
  have hnone : ∀ label ∈ labels', label ∉ labels → Verdicts.support vs label = 0 := by
    intro label _ hlabel
    exact Verdicts.support_eq_zero fun v hv heq => hlabel (heq ▸ hactual v hv)
  have hweights : (labels.map (Verdicts.support vs)).sum = (labels'.map (Verdicts.support vs)).sum :=
    sum_map_eq_of_subset h h' hsub hnone
  have hparts : (labels.map fun label =>
      (Verdicts.support vs label : κ) * (ofLabel (κ := κ) vs label).f1).sum =
        (labels'.map fun label =>
          (Verdicts.support vs label : κ) * (ofLabel (κ := κ) vs label).f1).sum := by
    apply sum_map_eq_of_subset h h' hsub
    intro label hlabel hnot
    rw [hnone label hlabel hnot, Nat.cast_zero, zero_mul]
  simp only [averages, average_eq, List.map_map, Function.comp_def]
  change _ / (((labels.map (Verdicts.support vs)).sum : Nat) : κ) =
    _ / (((labels'.map (Verdicts.support vs)).sum : Nat) : κ)
  rw [hweights]
  exact congrArg (· / _) hparts

end Figures

namespace Evaluation

def summaryKeys : List Text := [↑ "accuracy", ↑ "macro avg", ↑ "weighted avg"]

section

variable {κ : Type} [Scalar κ] {vs : List Verdict} {labels : List Text}

theorem entries_reportOf (hnodup : labels.Nodup) (hkeys : ∀ label ∈ labels, label ∉ summaryKeys) :
    (reportOf (κ := κ) vs labels).entries =
      entries labels (labels.map (Figures.ofLabel vs)) ++
        summaries vs labels (labels.map (Figures.ofLabel vs)) := by
  apply Table.entries_ofList
  have hlabels : (entries labels (labels.map (Figures.ofLabel (κ := κ) vs))).map Prod.fst = labels :=
    List.map_fst_zip (by simp)
  have hsummaries : (summaries vs labels (labels.map (Figures.ofLabel (κ := κ) vs))).map Prod.fst =
      summaryKeys := rfl
  rw [List.map_append, hlabels, hsummaries]
  refine List.nodup_append.2 ⟨hnodup, by decide, ?_⟩
  rintro label hlabel key hkey rfl
  exact hkeys label hlabel hkey

theorem get?_reportOf_label (hnodup : labels.Nodup) (hkeys : ∀ label ∈ labels, label ∉ summaryKeys)
    {label : Text} (h : label ∈ labels) :
    (reportOf vs labels).get? label = some (.figures (Figures.ofLabel (κ := κ) vs label)) := by
  rw [Table.get?_eq_some_iff, entries_reportOf hnodup hkeys, entries, List.map_map, List.zip_map_right]
  refine List.mem_append_left _ (List.mem_map.2 ⟨(label, label), ?_, rfl⟩)
  obtain ⟨place, hplace⟩ := List.mem_iff_getElem?.1 h
  exact List.mem_iff_getElem?.2 ⟨place, by simp [List.getElem?_zip_eq_some, hplace]⟩

theorem get?_reportOf_weighted (hnodup : labels.Nodup)
    (hkeys : ∀ label ∈ labels, label ∉ summaryKeys) :
    (reportOf vs labels).get? ↑ "weighted avg" = some (.figures
      (Figures.averages Figures.support (labels.map (Figures.ofLabel (κ := κ) vs)))) := by
  rw [Table.get?_eq_some_iff, entries_reportOf hnodup hkeys]
  exact List.mem_append_right _ (List.mem_cons_of_mem _ (List.mem_cons_of_mem _ List.mem_cons_self))

end

section

variable {κ : Type} [LinearOrder κ] [OrderedScalar κ] {vs : List Verdict} {labels : List Text}

theorem sum_confusion (hnodup : labels.Nodup) (hactual : ∀ v ∈ vs, v.actual ∈ labels)
    (hpredicted : ∀ v ∈ vs, v.predicted ∈ labels) :
    ((Verdicts.confusion vs labels).map List.sum).sum = vs.length := by
  rw [Verdicts.confusion_eq vs hnodup, List.map_map, ← Verdicts.sum_support hnodup hactual]
  congr 1
  exact List.map_congr_left fun actual _ => Verdicts.sum_confused hnodup hpredicted actual

theorem getElem?_confusion_eq_zero (hnodup : labels.Nodup) {row : List Nat}
    (hrow : row ∈ Verdicts.confusion vs labels) {place : Nat} {label : Text}
    (hlabel : labels[place]? = some label) (h : ∀ v ∈ vs, v.predicted ≠ label) :
    row[place]? = some 0 := by
  rw [Verdicts.confusion_eq vs hnodup] at hrow
  obtain ⟨actual, -, rfl⟩ := List.mem_map.1 hrow
  rw [List.getElem?_map, hlabel, Option.map_some, Verdicts.confused_eq_zero h]

theorem ratio_correct (hnodup : labels.Nodup) (hactual : ∀ v ∈ vs, v.actual ∈ labels) (hne : vs ≠ []) :
    (Figures.ratio (Verdicts.correct vs) vs.length : κ) =
      (trace (Verdicts.confusion vs labels) : κ) / (vs.length : κ) := by
  have hlength : vs.length ≠ 0 := mt List.length_eq_zero_iff.1 hne
  rw [Verdicts.confusion_eq vs hnodup, trace_confused, Verdicts.sum_hits hnodup hactual, Figures.ratio,
    if_neg hlength, ExactScalar.ofInt_eq, ExactScalar.ofInt_eq, Int.cast_natCast, Int.cast_natCast]

theorem support_reportOf (hnodup : labels.Nodup) (hkeys : ∀ label ∈ labels, label ∉ summaryKeys)
    (hpredicted : ∀ v ∈ vs, v.predicted ∈ labels) {place : Nat} {label : Text} {row : List Nat}
    (hlabel : labels[place]? = some label)
    (hrow : (Verdicts.confusion vs labels)[place]? = some row) :
    ∃ f, (reportOf (κ := κ) vs labels).get? label = some (.figures f) ∧ f.support = row.sum ∧
      f.support = (vs.map Verdict.actual).count label := by
  refine ⟨_, get?_reportOf_label hnodup hkeys (List.mem_of_getElem? hlabel), ?_,
    Verdicts.support_eq_count label⟩
  rw [Verdicts.confusion_eq vs hnodup, List.getElem?_map, hlabel, Option.map_some] at hrow
  rw [← Option.some.inj hrow, Verdicts.sum_confused hnodup hpredicted]
  rfl

theorem f1_reportOf (hnodup : labels.Nodup) (hkeys : ∀ label ∈ labels, label ∉ summaryKeys)
    (hactual : ∀ v ∈ vs, v.actual ∈ labels) (hpredicted : ∀ v ∈ vs, v.predicted ∈ labels) :
    ∃ f, (reportOf (κ := κ) vs labels).get? ↑ "weighted avg" = some (.figures f) ∧
      (ofCompared (κ := κ) vs labels).f1 = f.f1 := by
  refine ⟨_, get?_reportOf_weighted hnodup hkeys, ?_⟩
  apply Figures.averages_support_eq (Text.nodup_sorted _) hnodup
  · intro label hlabel
    obtain h | h := List.mem_append.1 (Text.mem_sorted.1 hlabel)
    · obtain ⟨v, hv, rfl⟩ := List.mem_map.1 h
      exact hactual v hv
    · obtain ⟨v, hv, rfl⟩ := List.mem_map.1 h
      exact hpredicted v hv
  · intro v hv
    exact Text.mem_sorted.2 (List.mem_append_left _ (List.mem_map_of_mem hv))

end

end Evaluation

end MaxEnt
