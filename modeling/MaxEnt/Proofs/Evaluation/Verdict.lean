import Mathlib
import MaxEnt.Evaluation.Basic
import MaxEnt.Proofs.Model.Best

namespace MaxEnt

theorem Event.length_values {e : Event} {vs : List Binary64} (h : e.values = some vs) :
    vs.length = e.context.length := by
  obtain ⟨outcome, features⟩ := e
  cases features with
  | plain names => cases h
  | valued pairs =>
    rw [← Option.some.inj h, context, List.length_map, List.length_map]

namespace Model

variable {κ : Type} [Scalar κ]

theorem not_lacksValue_of_event (m : Model κ) (e : Event) :
    ¬m.LacksValue e.context (e.values.map (·.map Scalar.ofBinary64)) := by
  rintro ⟨vs, hvs, place, name, hname, hle, -⟩
  obtain ⟨values, hvalues, rfl⟩ := Option.map_eq_some_iff.1 hvs
  have hlt := (List.getElem?_eq_some_iff.1 hname).1
  rw [List.length_map, Event.length_values hvalues] at hle
  exact absurd hlt (Nat.not_lt.2 hle)

def bestFor? (m : Model κ) (e : Event) : Option Text :=
  match m.probabilities e.context (e.values.map (·.map Scalar.ofBinary64)) with
  | .ok ps => (m.best ps).toOption
  | .error _ => none

theorem exists_verdict (m : Model κ) (e : Event) :
    ∃ label ∈ m.labels, m.bestFor? e = some label ∧ m.verdict e = .ok ⟨e.outcome, label⟩ := by
  obtain ⟨ps, hps⟩ := exists_probabilities (m.not_lacksValue_of_event e)
  obtain ⟨label, hlabel, hbest⟩ := exists_best (length_of_probabilities hps)
  refine ⟨label, hlabel, ?_, ?_⟩
  · rw [bestFor?, hps]
    simp only [hbest]
    rfl
  · rw [verdict, hps]
    simp only [Except.mapError, bind, Except.bind, hbest]
    rfl

theorem exists_mapM_verdict (m : Model κ) (events : List Event) :
    ∃ predicted : Event → Text, (∀ e, predicted e ∈ m.labels) ∧
      (∀ e, m.bestFor? e = some (predicted e)) ∧
      events.mapM m.verdict = .ok (events.map fun e => ⟨e.outcome, predicted e⟩) := by
  choose predicted hlabel hbest hverdict using m.exists_verdict
  refine ⟨predicted, hlabel, hbest, ?_⟩
  have hpure : m.verdict = fun e => pure ⟨e.outcome, predicted e⟩ := funext hverdict
  rw [hpure, List.mapM_pure]
  rfl

theorem evaluate_eq {m : Model κ} {events : List Event} {vs : List Verdict}
    (hvs : events.mapM m.verdict = .ok vs) (hne : vs ≠ []) (dataset : Text) :
    m.evaluate dataset events =
      .ok (.ofVerdicts vs (Text.sorted (m.labels ++ events.map Event.outcome))) := by
  have hempty : vs.isEmpty = false := List.isEmpty_eq_false_iff.2 hne
  rw [evaluate, hvs]
  simp only [bind, Except.bind, hempty]
  rfl

theorem evaluate_eq_error_iff {m : Model κ} {dataset : Text} {events : List Event}
    {error : EvaluationError} :
    m.evaluate dataset events = .error error ↔ events = [] ∧ error = .noEvents dataset := by
  obtain ⟨predicted, -, -, hvs⟩ := m.exists_mapM_verdict events
  cases events with
  | nil =>
    have hnone : m.evaluate dataset [] = .error (.noEvents dataset) := rfl
    rw [hnone, Except.error.injEq, eq_comm, and_iff_right rfl]
  | cons e events =>
    rw [evaluate_eq hvs (by simp)]
    exact iff_of_false nofun nofun

/-- Probabilities come from the predicates that are known with an outcome, and are missing when one
of these has no value. The predicates of an event have their values, so that events fail to be
evaluated only when there are none. -/
theorem probabilities_known (m : Model κ) (context : List Text) (values : Option (List κ)) :
    ((∃ e, m.probabilities context values = .error e) ↔ m.LacksValue context values) ∧
    (¬m.LacksValue context values →
      ∃ ps, m.probabilities context values = .ok ps ∧
        m.probabilities (context.filter m.weighs) (m.keptValues context values) = .ok ps ∧
        ∀ n : Model κ, n.labels = m.labels →
          (∀ name ∈ context, n.predicates.get? name = m.predicates.get? name) →
          n.probabilities context values = .ok ps) ∧
    ∀ (dataset : Text) (events : List Event) (error : EvaluationError),
      m.evaluate dataset events = .error error ↔ events = [] ∧ error = .noEvents dataset := by
  refine ⟨probabilities_eq_error_iff, fun hvalues => ?_, fun _ _ _ => evaluate_eq_error_iff⟩
  obtain ⟨ps, hps⟩ := exists_probabilities hvalues
  refine ⟨ps, hps, ?_, fun n hlabels hentries => ?_⟩
  · rw [probabilities_kept hvalues, hps]
  · rw [probabilities_congr hlabels hentries, hps]

end Model

end MaxEnt
