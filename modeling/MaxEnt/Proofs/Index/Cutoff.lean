import Mathlib
import MaxEnt.Proofs.Index.Renumbering
import MaxEnt.Proofs.Training.Operation

namespace MaxEnt

namespace EventIndex

def counted (x : EventIndex) : List (Text × Int) := x.predicates.zip x.occurrences

/-- The event with those predicates only that the index counts as often as this. -/
def thin (x : EventIndex) (cutoff : Int) (e : Event) : Event :=
  { e with features := e.features.filter fun name =>
      x.counted.any fun p => decide (p.1 = name ∧ cutoff ≤ p.2) }

/-- What an index `y` with this cutoff is to an index `x` of the same events with a lower one, where
the rows of both are in the order of the events. -/
structure Thins (cutoff : Int) (x y : EventIndex) : Prop where
  lengths : x.occurrences.length = x.predicates.length ∧ y.occurrences.length = y.predicates.length
  predicates : y.predicates.Sublist x.predicates
  counted : y.counted = x.counted.filter fun p => decide (cutoff ≤ p.2)
  events : ∃ told, x.events? = some told ∧
    y.events? = some ((told.map (x.thin cutoff)).filter fun e => !e.context.isEmpty)
  labels : y.labels.Subperm x.labels

end EventIndex

namespace Indexing

theorem counted_build (s : IndexSettings) (events : List Event) :
    (build s events events).index.counted =
      (keptPredicates s.cutoff events).map fun p => (p.1, (p.2 : Int)) := by
  rw [index_build]
  exact List.zip_map' ..

theorem length_occurrences_build (s : IndexSettings) (events : List Event) :
    (build s events events).index.occurrences.length =
      (build s events events).index.predicates.length := by
  rw [index_build]
  simp [EventIndex.ofRows]

section

variable {low high : Int} (h : low ≤ high) (events : List Event)

include h

theorem keptPredicates_of_le : keptPredicates high events =
    (keptPredicates low events).filter fun p => decide (high ≤ p.2) := by
  rw [keptPredicates, keptPredicates, List.filter_filter]
  apply List.filter_congr
  intro p _
  by_cases hp : high ≤ p.2
  · simp [hp, h.trans hp]
  · simp [hp]

theorem keptNames_sublist : (keptNames high events).Sublist (keptNames low events) := by
  rw [keptNames, keptPredicates_of_le h]
  exact List.filter_sublist.map _

theorem thin_build (s : IndexSettings) (hs : s.cutoff = low) (e : Event) :
    (build s events events).index.thin high e = restrict (keptNames high events) e := by
  have hkept : ∀ name, (build s events events).index.counted.any
      (fun p => decide (p.1 = name ∧ high ≤ p.2)) = (keptNames high events).contains name := by
    intro name
    rw [Bool.eq_iff_iff, List.any_eq_true, List.contains_iff_mem, keptNames,
      keptPredicates_of_le h, counted_build, hs]
    simp only [List.mem_map, List.mem_filter, decide_eq_true_eq]
    constructor
    · rintro ⟨-, ⟨p, hp, rfl⟩, rfl, hle⟩
      exact ⟨p, ⟨hp, hle⟩, rfl⟩
    · rintro ⟨p, ⟨hp, hle⟩, rfl⟩
      exact ⟨_, ⟨p, hp, rfl⟩, rfl, hle⟩
  rw [EventIndex.thin, funext hkept]
  rfl

theorem kept_of_le (ix : Indexer) (sort : Bool) : kept ⟨ix, high, sort⟩ events =
    ((kept ⟨ix, low, sort⟩ events).map (restrict (keptNames high events))).filter
      fun e => !e.context.isEmpty := by
  have hnames := (keptNames_sublist h events).subset
  have hnonempty : ∀ e : Event, (!(e.context.filter (keptNames high events).contains).isEmpty) =
      e.context.any (keptNames high events).contains := by
    intro e
    rw [Bool.eq_iff_iff]
    simp
  rw [kept_eq, kept_eq, List.map_map, List.filter_map, ← touched_touched hnames, touched]
  simp only [Function.comp_def, restrict_of_subset hnames, context_restrict, context_prepare,
    hnonempty]

theorem Frequent.of_le {e : Event} (he : Frequent high events e) : Frequent low events e := by
  obtain ⟨name, hname, hle⟩ := he
  exact ⟨name, hname, h.trans hle⟩

theorem keptLabels_subperm : (keptLabels high events).Subperm (keptLabels low events) := by
  apply (nodup_keptLabels high events).subperm
  intro label hlabel
  obtain ⟨e, he, hfrequent, houtcome⟩ := mem_keptLabels.1 hlabel
  exact mem_keptLabels.2 ⟨e, he, Frequent.of_le h events hfrequent, houtcome⟩

theorem thins_build : EventIndex.Thins high (build ⟨.onePass, low, false⟩ events events).index
    (build ⟨.onePass, high, false⟩ events events).index where
  lengths := ⟨length_occurrences_build _ events, length_occurrences_build _ events⟩
  predicates := keptNames_sublist h events
  counted := by
    rw [counted_build, counted_build, keptPredicates_of_le h, List.filter_map]
    rfl
  events := by
    refine ⟨_, events?_unsorted low (admissible_onePass events), ?_⟩
    rw [events?_unsorted high (admissible_onePass events), kept_of_le h]
    congr 3
    funext e
    exact (thin_build h events ⟨.onePass, low, false⟩ rfl e).symm
  labels := by
    rw [labels_build, labels_build]
    exact keptLabels_subperm h events

end

/-- A higher cutoff takes predicates away, and from the rows and the outcomes what hangs on them;
the rows and the predicates that stay keep their order and the counts stay. Where there were too
few outcomes to train there are too few again. -/
theorem ofEvents_cutoff {low high : Int} (h : low ≤ high) (events : List Event) :
    ∃ i j, ofEvents ⟨.onePass, low, false⟩ events = .ok i ∧
      ofEvents ⟨.onePass, high, false⟩ events = .ok j ∧
      EventIndex.Thins high i.index j.index ∧
      (i.index.labels.length ≤ 1 → j.index.labels.length ≤ 1) ∧
      ∀ (ε : Type) (t u : Trainer),
        (t.trainOn i.index : Outcome ε Trained).result = .error .insufficient →
        u.validate u.parameters = .ok () →
        (u.trainOn j.index : Outcome ε Trained).result = .error .insufficient := by
  have hthins := thins_build h events
  refine ⟨build ⟨.onePass, low, false⟩ events events, build ⟨.onePass, high, false⟩ events events,
    rfl, rfl, hthins, ?_, ?_⟩
  · exact hthins.labels.length_le.trans
  · intro ε t u ht hu
    have hfew := (Trainer.trainOn_insufficient_iff.1 ht).2
    exact Trainer.trainOn_insufficient_iff.2 ⟨hu, hthins.labels.length_le.trans hfew⟩

/-- The outcome that comes first at a low cutoff comes last at a higher one. -/
def overtakenEvents : List Event :=
  [⟨"a", .plain ["p", "p'"]⟩, ⟨"b", .plain ["q", "p", "q"]⟩, ⟨"c", .plain ["r"]⟩,
    ⟨"a", .plain ["q", "r"]⟩]

theorem ofEvents_cutoff_overtakenEvents :
    (1 : Int) ≤ 3 ∧ ∃ i j, ofEvents ⟨.onePass, 1, false⟩ overtakenEvents = .ok i ∧
      ofEvents ⟨.onePass, 3, false⟩ overtakenEvents = .ok j ∧
      EventIndex.Thins 3 i.index j.index ∧
      i.index.predicates = [↑ "p", ↑ "p'", ↑ "q", ↑ "r"] ∧ j.index.predicates = [↑ "q"] ∧
      i.index.labels = [↑ "a", ↑ "b", ↑ "c"] ∧ j.index.labels = [↑ "b", ↑ "a"] ∧
      ¬ j.index.labels.Sublist i.index.labels := by
  have h : (1 : Int) ≤ 3 := by decide
  obtain ⟨i, j, hi, hj, hthins, -, -⟩ := ofEvents_cutoff h overtakenEvents
  have hlow : (ofEvents ⟨.onePass, 1, false⟩ overtakenEvents).map
      (fun i => (i.index.predicates, i.index.labels)) =
      .ok ([↑ "p", ↑ "p'", ↑ "q", ↑ "r"], [↑ "a", ↑ "b", ↑ "c"]) := by cbv
  have hhigh : (ofEvents ⟨.onePass, 3, false⟩ overtakenEvents).map
      (fun i => (i.index.predicates, i.index.labels)) = .ok ([↑ "q"], [↑ "b", ↑ "a"]) := by cbv
  rw [hi] at hlow
  rw [hj] at hhigh
  obtain ⟨hpredicates, hlabels⟩ := Prod.mk.inj (Except.ok.inj hlow)
  obtain ⟨hpredicates', hlabels'⟩ := Prod.mk.inj (Except.ok.inj hhigh)
  refine ⟨h, i, j, hi, hj, hthins, hpredicates, hpredicates', hlabels, hlabels', ?_⟩
  rw [hlabels, hlabels']
  decide

end Indexing

end MaxEnt
