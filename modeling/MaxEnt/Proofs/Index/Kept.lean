import Mathlib.Data.List.Basic
import MaxEnt.Index.Indexer
import MaxEnt.Proofs.Index.Order
import MaxEnt.Proofs.Index.Tally

namespace MaxEnt.Indexing

theorem isEmpty_features (e : Event) : e.features.isEmpty = e.context.isEmpty := by
  obtain ⟨outcome, features⟩ := e
  cases features with
  | plain names => rfl
  | valued pairs => cases pairs <;> rfl

@[simp] theorem context_prepare (keepsValues : Bool) (e : Event) :
    (prepare keepsValues e).context = e.context := by
  obtain ⟨outcome, features⟩ := e
  cases keepsValues <;> cases features <;>
    simp [prepare, Event.context, Features.withValues, Features.withoutValues, Function.comp_def]

def restrict (names : List Text) (e : Event) : Event :=
  { e with features := e.features.filter names.contains }

@[simp] theorem context_restrict (names : List Text) (e : Event) :
    (restrict names e).context = e.context.filter names.contains := by
  obtain ⟨outcome, features⟩ := e
  cases features with
  | plain context => rfl
  | valued pairs =>
    simp only [restrict, Features.filter, Event.context, List.filter_map]
    rfl

theorem restrict_of_subset {names names' : List Text} (h : names' ⊆ names) (e : Event) :
    restrict names' (restrict names e) = restrict names' e := by
  have hand : ∀ name, (names'.contains name && names.contains name) = names'.contains name := by
    intro name
    rw [Bool.and_eq_left_iff_imp]
    exact fun hname => List.contains_iff_mem.2 (h (List.contains_iff_mem.1 hname))
  obtain ⟨outcome, features⟩ := e
  cases features with
  | plain context => simp only [restrict, Features.filter, List.filter_filter, hand]
  | valued pairs => simp only [restrict, Features.filter, List.filter_filter, hand]

def touched (names : List Text) (events : List Event) : List Event :=
  events.filter fun e => e.context.any names.contains

/-- Leaving out first the events without one of more names changes nothing. -/
theorem touched_touched {names names' : List Text} (h : names' ⊆ names) (events : List Event) :
    touched names' (touched names events) = touched names' events := by
  rw [touched, touched, List.filter_filter]
  apply List.filter_congr
  intro e _
  rw [Bool.and_eq_left_iff_imp]
  intro hany
  obtain ⟨name, hname, hcontains⟩ := List.any_eq_true.1 hany
  exact List.any_eq_true.2
    ⟨name, hname, List.contains_iff_mem.2 (h (List.contains_iff_mem.1 hcontains))⟩

theorem keptEvents_prepare (names : List Text) (keepsValues : Bool) (events : List Event) :
    keptEvents names (events.map (prepare keepsValues)) =
      (touched names events).map fun e => restrict names (prepare keepsValues e) := by
  have hkept : ∀ e : Event, (!(restrict names (prepare keepsValues e)).features.isEmpty) =
      e.context.any names.contains := by
    intro e
    rw [isEmpty_features, context_restrict, context_prepare, Bool.eq_iff_iff]
    simp
  rw [keptEvents, List.map_map, List.filter_map, touched]
  congr 1
  exact List.filter_congr fun e _ => hkept e

def keptNames (cutoff : Int) (events : List Event) : List Text :=
  (keptPredicates cutoff events).map Prod.fst

def keptLabels (cutoff : Int) (events : List Event) : List Text :=
  ((touched (keptNames cutoff events) events).map Event.outcome).eraseDups

def keptRows (s : IndexSettings) (events : List Event) : List Row :=
  let names := keptNames s.cutoff events
  (touched names events).map fun e =>
    row names (keptLabels s.cutoff events) (restrict names (prepare s.indexer.keepsValues e))

theorem index_build (s : IndexSettings) (events : List Event) :
    (build s events events).index = EventIndex.ofRows
      (if s.sort then sortAndMerge (keptRows s events) else (keptRows s events).map fun r => (r, 1))
      s.indexer.keepsValues (keptPredicates s.cutoff events) (keptLabels s.cutoff events) := by
  have hlabels : outcomeLabels (keptEvents (keptNames s.cutoff events)
      (events.map (prepare s.indexer.keepsValues))) = keptLabels s.cutoff events := by
    rw [keptEvents_prepare, outcomeLabels, List.map_map]
    rfl
  have hrows : (keptEvents (keptNames s.cutoff events)
      (events.map (prepare s.indexer.keepsValues))).map
        (row (keptNames s.cutoff events) (keptLabels s.cutoff events)) = keptRows s events := by
    rw [keptEvents_prepare, List.map_map]
    rfl
  rw [← hrows, ← hlabels]
  rfl

theorem labels_build {s : IndexSettings} {events : List Event} :
    (build s events events).index.labels = keptLabels s.cutoff events := by
  rw [index_build]
  rfl

theorem occurrences_build (s : IndexSettings) (events : List Event) :
    (build s events events).index.occurrences =
      (keptNames s.cutoff events).map fun name => (occurrences events name : Int) := by
  have hcolumn : (build s events events).index.occurrences =
      (keptPredicates s.cutoff events).map fun p => (p.2 : Int) := by
    rw [index_build]
    rfl
  rw [hcolumn, keptPredicates_eq, List.map_map]
  rfl

theorem table_build (s : IndexSettings) (counted events : List Event) :
    (build s counted events).report =
      .ofList [("Number of Event Tokens", Numeral.ofNat counted.length),
        ("Number of Outcomes", Numeral.ofNat (build s counted events).index.labels.length),
        ("Number of Predicates", Numeral.ofNat (keptNames s.cutoff counted).length)] := by
  rw [keptNames, List.length_map]
  rfl

theorem dropped_build (s : IndexSettings) (events : List Event) :
    (build s events events).dropped =
      (events.filter fun e => !e.context.any (keptNames s.cutoff events).contains).length := by
  have hlength := List.length_eq_length_filter_add
    (l := events) fun e => e.context.any (keptNames s.cutoff events).contains
  have hdropped : (build s events events).dropped = events.length -
      (keptEvents (keptNames s.cutoff events)
        (events.map (prepare s.indexer.keepsValues))).length := rfl
  rw [hdropped, keptEvents_prepare, List.length_map, touched]
  omega

theorem length_values {e : Event} {values : List Binary64} (h : e.values = some values) :
    values.length = e.context.length := by
  obtain ⟨outcome, features⟩ := e
  cases features with
  | plain names => simp [Event.values] at h
  | valued pairs =>
    simp only [Event.values, Option.some.injEq] at h
    rw [← h, Event.context, List.length_map, List.length_map]

theorem isSome_values_restrict (names : List Text) (e : Event) :
    (restrict names e).values.isSome = e.values.isSome := by
  obtain ⟨outcome, features⟩ := e
  cases features <;> rfl

theorem mem_values_restrict {names : List Text} {e : Event} {x : Binary64}
    (h : x ∈ (restrict names e).values.getD []) : x ∈ e.values.getD [] := by
  obtain ⟨outcome, features⟩ := e
  cases features with
  | plain context => exact h
  | valued pairs =>
    obtain ⟨pair, hpair, rfl⟩ := List.mem_map.1 h
    exact List.mem_map_of_mem (List.mem_filter.1 hpair).1

theorem isSome_values_prepare (keepsValues : Bool) (e : Event) :
    (prepare keepsValues e).values.isSome = keepsValues := by
  obtain ⟨outcome, features⟩ := e
  cases keepsValues <;> cases features <;> rfl

theorem mem_values_prepare {keepsValues : Bool} {e : Event} {x : Binary64}
    (h : x ∈ (prepare keepsValues e).values.getD []) :
    keepsValues = true ∧ (x = .one ∨ x ∈ e.values.getD []) := by
  obtain ⟨outcome, features⟩ := e
  cases keepsValues with
  | false => cases features <;> simp [prepare, Features.withoutValues, Event.values] at h
  | true =>
    refine ⟨rfl, ?_⟩
    cases features with
    | plain names =>
      left
      simp only [prepare, Features.withValues, Event.values, if_true, Option.getD_some,
        List.map_map, List.mem_map, Function.comp_apply] at h
      obtain ⟨name, -, hone⟩ := h
      exact hone.symm
    | valued pairs => exact .inr h

theorem regular_row (names labels : List Text) {keepsValues : Bool} {e : Event}
    (h : keepsValues = true → ∀ x ∈ e.values.getD [], x.isNaN = false) :
    (row names labels (restrict names (prepare keepsValues e))).Regular keepsValues := by
  refine ⟨?_, ?_, ?_⟩
  · exact (isSome_values_restrict _ _).trans (isSome_values_prepare _ e)
  · intro values hvalues
    rw [row, List.length_map]
    exact length_values hvalues
  · intro x hx
    obtain ⟨hkeeps, rfl | hx⟩ := mem_values_prepare (mem_values_restrict hx)
    · rfl
    · exact h hkeeps x hx

theorem regular_keptRows {s : IndexSettings} {events : List Event}
    (h : s.indexer.keepsValues = true → ∀ e ∈ events, ∀ x ∈ e.values.getD [], x.isNaN = false) :
    ∀ r ∈ keptRows s events, r.Regular s.indexer.keepsValues := by
  intro r hr
  obtain ⟨e, he, rfl⟩ := List.mem_map.1 hr
  obtain ⟨hevent, -⟩ := List.mem_filter.1 he
  exact regular_row _ _ fun hkeeps => h hkeeps e hevent

end MaxEnt.Indexing
