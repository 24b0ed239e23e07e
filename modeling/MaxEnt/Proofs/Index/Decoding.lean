import MaxEnt.Proofs.Index.Sorted
import MaxEnt.Proofs.Index.Spool

namespace MaxEnt

namespace EventIndex

def event? (x : EventIndex) (r : Row) : Option Event := do
  let outcome ← x.labels[r.outcome]?
  let names ← r.context.mapM (x.predicates[·]?)
  (Event.ofLists outcome names r.values).toOption

def events? (x : EventIndex) : Option (List Event) := x.seen.mapM fun r => x.event? r.1

theorem event?_row {x : EventIndex} {e : Event} (hlabel : e.outcome ∈ x.labels)
    (hnames : ∀ name ∈ e.context, name ∈ x.predicates) :
    x.event? (Indexing.row x.predicates x.labels e) = some e := by
  have houtcome : x.labels[x.labels.idxOf e.outcome]? = some e.outcome := List.getElem?_idxOf hlabel
  have hcontext : (e.context.map x.predicates.idxOf).mapM (x.predicates[·]?) = some e.context :=
    Numeral.mapM_map_eq_some fun name hname => List.getElem?_idxOf (hnames name hname)
  have hlists : (Event.ofLists e.outcome e.context e.values).toOption = some e := by
    obtain ⟨outcome, features⟩ := e
    cases features with
    | plain names => rfl
    | valued pairs =>
      simp only [Event.ofLists, Event.context, Event.values, List.length_map, if_true,
        List.zip_map', Except.toOption]
      simp
  simp only [event?, Indexing.row, houtcome, hcontext, Option.bind_eq_bind, Option.bind_some, hlists]

end EventIndex

namespace Indexing

/-- The events that are indexed, with the kept predicates only, and with or without values. -/
def kept (s : IndexSettings) (events : List Event) : List Event :=
  keptEvents (keptNames s.cutoff events) (events.map (prepare s.indexer.keepsValues))

section

variable (s : IndexSettings) (events : List Event)

theorem kept_eq : kept s events = (touched (keptNames s.cutoff events) events).map
    fun e => restrict (keptNames s.cutoff events) (prepare s.indexer.keepsValues e) :=
  keptEvents_prepare _ _ _

theorem keptRows_eq : keptRows s events =
    (kept s events).map (row (keptNames s.cutoff events) (keptLabels s.cutoff events)) := by
  rw [kept_eq, List.map_map]
  rfl

theorem keptLabels_eq : keptLabels s.cutoff events = outcomeLabels (kept s events) := by
  rw [kept_eq, outcomeLabels, List.map_map]
  rfl

variable {s events} {e : Event}

theorem outcome_mem_keptLabels (h : e ∈ kept s events) : e.outcome ∈ keptLabels s.cutoff events := by
  rw [keptLabels_eq, outcomeLabels, List.mem_eraseDups]
  exact List.mem_map_of_mem h

theorem mem_keptNames_of_mem_context (h : e ∈ kept s events) :
    ∀ name ∈ e.context, name ∈ keptNames s.cutoff events := by
  rw [kept_eq] at h
  obtain ⟨f, -, rfl⟩ := List.mem_map.1 h
  intro name hname
  rw [context_restrict] at hname
  exact List.contains_iff_mem.1 (List.mem_filter.1 hname).2

theorem event?_build (h : e ∈ kept s events) : (build s events events).index.event?
    (row (keptNames s.cutoff events) (keptLabels s.cutoff events) e) = some e := by
  have hlabels : (build s events events).index.labels = keptLabels s.cutoff events := labels_build
  have hlabel := outcome_mem_keptLabels h
  rw [← hlabels] at hlabel ⊢
  exact EventIndex.event?_row hlabel (mem_keptNames_of_mem_context h)

theorem row_mem_keptRows (h : e ∈ kept s events) :
    row (keptNames s.cutoff events) (keptLabels s.cutoff events) e ∈ keptRows s events := by
  rw [keptRows_eq]
  exact List.mem_map_of_mem h

theorem exists_event?_build {r : Row} (h : r ∈ keptRows s events) :
    ∃ e ∈ kept s events, (build s events events).index.event? r = some e := by
  rw [keptRows_eq] at h
  obtain ⟨e, he, rfl⟩ := List.mem_map.1 h
  exact ⟨e, he, event?_build he⟩

theorem events?_unsorted {ix : Indexer} (cutoff : Int) (h : Admissible ix events) :
    (build ⟨ix, cutoff, false⟩ events events).index.events? = some (kept ⟨ix, cutoff, false⟩ events) := by
  rw [EventIndex.events?, seen_unsorted cutoff h, keptRows_eq, List.map_map]
  exact Numeral.mapM_map_eq_some fun e he => event?_build he

end

end Indexing

end MaxEnt
