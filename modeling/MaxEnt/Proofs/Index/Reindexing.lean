import MaxEnt.Proofs.Index.Decoding
import MaxEnt.Proofs.Index.Reading

namespace MaxEnt.Indexing

/-- Events that are left out have none of the names, so leaving them out leaves out no name more. -/
theorem flatMap_touched (names : List Text) (events : List Event) :
    (touched names events).flatMap (fun e => e.context.filter names.contains) =
      (events.flatMap Event.context).filter names.contains := by
  induction events with
  | nil => rfl
  | cons e events ih =>
    rw [List.flatMap_cons, List.filter_append, ← ih, touched]
    by_cases he : e.context.any names.contains = true
    · rw [List.filter_cons, if_pos he, List.flatMap_cons]
      rfl
    · have hnone : e.context.filter names.contains = [] := by simpa using he
      rw [List.filter_cons, if_neg he, hnone]
      rfl

theorem prepare_restrict (names : List Text) (keepsValues : Bool) (e : Event) :
    prepare keepsValues (restrict names (prepare keepsValues e)) =
      restrict names (prepare keepsValues e) := by
  obtain ⟨outcome, features⟩ := e
  cases keepsValues <;> cases features <;> rfl

section

variable (s : IndexSettings) (events : List Event)

theorem flatMap_context_kept : (kept s events).flatMap Event.context =
    (events.flatMap Event.context).filter (keptNames s.cutoff events).contains := by
  rw [kept_eq, List.flatMap_map, ← flatMap_touched]
  simp only [context_restrict, context_prepare]

theorem occurrences_kept {name : Text} (h : name ∈ keptNames s.cutoff events) :
    occurrences (kept s events) name = occurrences events name := by
  rw [occurrences, flatMap_context_kept, List.count_filter (List.contains_iff_mem.2 h)]
  rfl

theorem keptNames_kept : keptNames s.cutoff (kept s events) = keptNames s.cutoff events := by
  have hkept : ∀ name ∈ (events.flatMap Event.context).eraseDups,
      (decide (s.cutoff ≤ occurrences (kept s events) name) &&
        (keptNames s.cutoff events).contains name) =
      decide (s.cutoff ≤ occurrences events name) := by
    intro name hname
    have hmem : name ∈ keptNames s.cutoff events ↔ s.cutoff ≤ occurrences events name := by
      rw [mem_keptNames, ← List.mem_flatMap]
      exact and_iff_right (List.mem_eraseDups.1 hname)
    by_cases hn : name ∈ keptNames s.cutoff events
    · rw [occurrences_kept s events hn]
      simp [hn]
    · simp [hn, mt hmem.2 hn]
  rw [keptNames, names_keptPredicates, flatMap_context_kept, eraseDups_filter, List.filter_filter,
    List.filter_congr hkept, keptNames, names_keptPredicates]

theorem keptPredicates_kept :
    keptPredicates s.cutoff (kept s events) = keptPredicates s.cutoff events := by
  have hnames := keptNames_kept s events
  rw [keptPredicates_eq, keptPredicates_eq s.cutoff events, ← keptNames, ← keptNames, hnames]
  apply List.map_congr_left
  intro name hname
  rw [occurrences_kept s events hname]

theorem kept_kept : kept s (kept s events) = kept s events := by
  have hsame : ∀ e ∈ kept s events,
      restrict (keptNames s.cutoff events) (prepare s.indexer.keepsValues e) = e := by
    rw [kept_eq]
    intro e he
    obtain ⟨f, -, rfl⟩ := List.mem_map.1 he
    rw [prepare_restrict, restrict_of_subset (List.Subset.refl _)]
  have hall : ∀ e ∈ kept s events,
      e.context.any (keptNames s.cutoff events).contains = true := by
    rw [kept_eq]
    intro e he
    obtain ⟨f, hf, rfl⟩ := List.mem_map.1 he
    obtain ⟨name, hname, hcontains⟩ := List.any_eq_true.1 (List.mem_filter.1 hf).2
    rw [context_restrict, context_prepare]
    exact List.any_eq_true.2 ⟨name, List.mem_filter.2 ⟨hname, hcontains⟩, hcontains⟩
  rw [kept_eq s (kept s events), keptNames_kept, touched, List.filter_eq_self.2 hall,
    List.map_congr_left hsame, List.map_id']

theorem index_kept : (build s (kept s events) (kept s events)).index = (build s events events).index := by
  have hlabels : keptLabels s.cutoff (kept s events) = keptLabels s.cutoff events := by
    rw [keptLabels_eq, kept_kept, ← keptLabels_eq]
  have hrows : keptRows s (kept s events) = keptRows s events := by
    rw [keptRows_eq, kept_kept, keptNames_kept, hlabels, ← keptRows_eq]
  rw [index_build, index_build s events, hrows, hlabels, keptPredicates_kept]

end

theorem admissible_kept {s : IndexSettings} {events : List Event} (h : Admissible s.indexer events) :
    Admissible s.indexer (kept s events) := by
  intro hkeeps e he x hx
  rw [kept_eq] at he
  obtain ⟨f, hf, rfl⟩ := List.mem_map.1 he
  obtain ⟨-, rfl | hx⟩ := mem_values_prepare (mem_values_restrict hx)
  · decide
  · exact h hkeeps f (List.mem_filter.1 hf).1 x hx

/-- The rows of an index, read as events, are indexed as the events were that the index was made of,
whether they are sorted or not. -/
theorem ofEvents_events {ix : Indexer} (hix : ix ≠ .twoPass) (cutoff : Int) {events : List Event}
    (h : Admissible ix events) :
    ∃ i j told, ofEvents ⟨ix, cutoff, false⟩ events = .ok i ∧
      ofEvents ⟨ix, cutoff, true⟩ events = .ok j ∧ i.index.events? = some told ∧
      (∃ i', ofEvents ⟨ix, cutoff, false⟩ told = .ok i' ∧ i'.index = i.index) ∧
      ∃ j', ofEvents ⟨ix, cutoff, true⟩ told = .ok j' ∧ j'.index = j.index := by
  have hkept : Admissible ix (kept ⟨ix, cutoff, false⟩ events) :=
    admissible_kept (s := ⟨ix, cutoff, false⟩) h
  refine ⟨_, _, _, ofEvents_eq_build hix h, ofEvents_eq_build hix h, events?_unsorted cutoff h,
    ⟨_, ofEvents_eq_build hix hkept, ?_⟩, _, ofEvents_eq_build hix hkept, ?_⟩
  · exact index_kept ⟨ix, cutoff, false⟩ events
  · exact index_kept ⟨ix, cutoff, true⟩ events

def thinnedEvents : List Event :=
  [⟨"x", .plain ["r"]⟩, ⟨"b", .valued [("p", .one), ("s", .zero), ("q", .ofMagnitude true 0)]⟩,
    ⟨"a", .plain ["q", "p"]⟩]

theorem ofEvents_events_thinnedEvents :
    Indexer.onePassRealValue ≠ .twoPass ∧ Admissible .onePassRealValue thinnedEvents ∧
      ∃ i told, ofEvents ⟨.onePassRealValue, 2, false⟩ thinnedEvents = .ok i ∧
        i.index.events? = some told ∧
        told = [⟨"b", .valued [("p", .one), ("q", .ofMagnitude true 0)]⟩,
          ⟨"a", .valued [("q", .one), ("p", .one)]⟩] ∧
        ∃ i', ofEvents ⟨.onePassRealValue, 2, false⟩ told = .ok i' ∧ i'.index = i.index := by
  have hix : Indexer.onePassRealValue ≠ .twoPass := by decide
  have h : Admissible .onePassRealValue thinnedEvents := by
    intro _
    decide
  obtain ⟨i, -, told, hi, -, htold, hagain, -⟩ := ofEvents_events hix 2 h
  have hlist : (ofEvents ⟨.onePassRealValue, 2, false⟩ thinnedEvents).map (·.index.events?) =
      .ok (some [⟨"b", .valued [("p", .one), ("q", .ofMagnitude true 0)]⟩,
        ⟨"a", .valued [("q", .one), ("p", .one)]⟩]) := by cbv
  rw [hi] at hlist
  have heq := htold.symm.trans (Except.ok.inj hlist)
  exact ⟨hix, h, i, told, hi, htold, Option.some.inj heq, hagain⟩

end MaxEnt.Indexing
