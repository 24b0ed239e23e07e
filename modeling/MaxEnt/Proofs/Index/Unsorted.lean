import Mathlib.Algebra.BigOperators.Ring.Finset
import Mathlib.Data.List.Count
import MaxEnt.Proofs.Index.Kept

namespace MaxEnt

def nameAt? (names : List Text) (place : Int) : Option Text :=
  if 0 ≤ place then names[place.toNat]? else none

theorem nameAt?_idxOf {names : List Text} {name : Text} (h : name ∈ names) :
    nameAt? names (names.idxOf name : Nat) = some name := by
  rw [nameAt?, if_pos (Int.natCast_nonneg _), Int.toNat_natCast]
  exact List.getElem?_idxOf h

theorem nameAt?_eq_some_iff {names : List Text} (hnodup : names.Nodup) {k : Nat}
    (hk : k < names.length) (place : Int) : nameAt? names place = some names[k] ↔ place = k := by
  rw [nameAt?]
  by_cases hp : 0 ≤ place
  · rw [if_pos hp, List.getElem?_eq_some_iff]
    constructor
    · rintro ⟨hlt, he⟩
      have := (hnodup.getElem_inj_iff).1 he
      omega
    · intro he
      have hnat : place.toNat = k := by omega
      exact ⟨by omega, by simp [hnat]⟩
  · rw [if_neg hp]
    simp only [reduceCtorEq, false_iff]
    omega

theorem count_nameAt? {names : List Text} (hnodup : names.Nodup) {k : Nat}
    (hk : k < names.length) (context : List Int) :
    (context.map (nameAt? names)).count (some names[k]) = context.count (k : Int) := by
  rw [List.count, List.count, List.countP_map]
  apply List.countP_congr
  intro place _
  simp [nameAt?_eq_some_iff hnodup hk]

theorem inRange_of_nameAt? {names : List Text} {place : Int} (h : (nameAt? names place).isSome) :
    0 ≤ place ∧ place < names.length := by
  rw [nameAt?] at h
  by_cases hp : 0 ≤ place
  · rw [if_pos hp, isSome_getElem?] at h
    omega
  · simp [hp] at h

namespace Indexing

/-- What an index of these events is that keeps them in order and each by itself. -/
structure Unsorted (cutoff : Int) (events : List Event) (i : Indexing) : Prop where
  predicates : FirstSeen (events.flatMap Event.context)
    (fun name => cutoff ≤ occurrences events name) i.index.predicates
  occurrences : i.index.occurrences =
    i.index.predicates.map fun name => (occurrences events name : Int)
  contexts : i.index.contexts.map (List.map (nameAt? i.index.predicates)) =
    (touched i.index.predicates events).map fun e =>
      (e.context.filter i.index.predicates.contains).map some
  outcomes : i.index.outcomes.map (nameAt? i.index.labels) =
    (touched i.index.predicates events).map fun e => some e.outcome
  labels : FirstSeen ((touched i.index.predicates events).map Event.outcome) (fun _ => True)
    i.index.labels
  counts : i.index.counts = List.replicate i.index.contexts.length 1
  values : i.index.values = none
  dropped : i.dropped =
    (events.filter fun e => !e.context.any i.index.predicates.contains).length

/-- A predicate does not occur in events that are left out for having none of those kept. -/
theorem sum_touched {names : List Text} {name : Text} (events : List Event) (h : name ∈ names) :
    ((touched names events).map fun e => e.context.count name).sum = occurrences events name := by
  rw [occurrences, List.count_flatMap]
  induction events with
  | nil => rfl
  | cons e events ih =>
    rw [touched] at ih ⊢
    by_cases he : e.context.any names.contains = true
    · rw [List.filter_cons, if_pos he, List.map_cons, List.sum_cons, ih, List.map_cons, List.sum_cons]
      rfl
    · -- An event that is dropped adds nothing to the right side either.
      have hcount : e.context.count name = 0 := by
        rw [List.count_eq_zero]
        intro hname
        exact he (List.any_eq_true.2 ⟨name, hname, List.contains_iff_mem.2 h⟩)
      rw [List.filter_cons, if_neg he, ih, List.map_cons, List.sum_cons, Function.comp_apply, hcount,
        Nat.zero_add]

namespace Unsorted

variable {cutoff : Int} {events : List Event} {i : Indexing}

theorem length_contexts (h : Unsorted cutoff events i) :
    i.index.contexts.length = (touched i.index.predicates events).length := by
  simpa using congrArg List.length h.contexts

theorem length_outcomes (h : Unsorted cutoff events i) :
    i.index.outcomes.length = i.index.contexts.length := by
  rw [h.length_contexts]
  simpa using congrArg List.length h.outcomes

theorem length_counts (h : Unsorted cutoff events i) :
    i.index.counts.length = i.index.contexts.length := by
  rw [h.counts, List.length_replicate]

theorem place_inRange (h : Unsorted cutoff events i) {context : List Int}
    (hc : context ∈ i.index.contexts) {place : Int} (hp : place ∈ context) :
    0 ≤ place ∧ place < i.index.predicates.length := by
  apply inRange_of_nameAt?
  have hmem : context.map (nameAt? i.index.predicates) ∈
      i.index.contexts.map (List.map (nameAt? i.index.predicates)) := List.mem_map_of_mem hc
  rw [h.contexts] at hmem
  obtain ⟨e, -, he⟩ := List.mem_map.1 hmem
  have hplace : nameAt? i.index.predicates place ∈ context.map (nameAt? i.index.predicates) :=
    List.mem_map_of_mem hp
  rw [← he] at hplace
  obtain ⟨name, -, hname⟩ := List.mem_map.1 hplace
  rw [← hname]
  rfl

theorem outcome_inRange (h : Unsorted cutoff events i) {outcome : Int}
    (ho : outcome ∈ i.index.outcomes) : 0 ≤ outcome ∧ outcome < i.index.labels.length := by
  apply inRange_of_nameAt?
  have hmem : nameAt? i.index.labels outcome ∈ i.index.outcomes.map (nameAt? i.index.labels) :=
    List.mem_map_of_mem ho
  rw [h.outcomes] at hmem
  obtain ⟨e, -, he⟩ := List.mem_map.1 hmem
  rw [← he]
  rfl

theorem count_contexts (h : Unsorted cutoff events i) {k : Nat}
    (hk : k < i.index.predicates.length) :
    (i.index.contexts.map fun context => context.count (k : Int)) =
      (touched i.index.predicates events).map
        fun e => e.context.count i.index.predicates[k] := by
  have hname : i.index.predicates.contains i.index.predicates[k] = true := by simp
  have hkept : ∀ e : Event,
      ((e.context.filter i.index.predicates.contains).map some).count
        (some i.index.predicates[k]) = e.context.count i.index.predicates[k] := by
    intro e
    rw [List.count_map_of_injective _ _ (Option.some_injective _), List.count_filter hname]
  calc (i.index.contexts.map fun context => context.count (k : Int))
      = (i.index.contexts.map (List.map (nameAt? i.index.predicates))).map
          (List.count (some i.index.predicates[k])) := by
        rw [List.map_map]
        apply List.map_congr_left
        intro context _
        exact (count_nameAt? h.predicates.nodup hk context).symm
    _ = _ := by
        rw [h.contexts, List.map_map]
        exact List.map_congr_left fun e _ => hkept e

theorem occurrences_eq_sum (h : Unsorted cutoff events i) {k : Nat}
    (hk : k < i.index.predicates.length) :
    i.index.occurrences[k]? = some (i.index.contexts.zipWith
      (fun context seen => seen * (context.count (k : Int) : Int)) i.index.counts).sum := by
  have hseen : i.index.contexts.zipWith
      (fun context seen => seen * (context.count (k : Int) : Int)) i.index.counts =
      (i.index.contexts.map fun context => context.count (k : Int)).map Nat.cast := by
    rw [h.counts, ← List.map_const', List.zipWith_map_right, List.zipWith_self]
    simp
  rw [h.occurrences, List.getElem?_map, List.getElem?_eq_getElem hk, hseen, h.count_contexts hk,
    ← Nat.cast_list_sum, sum_touched _ (List.getElem_mem hk)]
  rfl

theorem dropped_add_counts (h : Unsorted cutoff events i) :
    (i.dropped : Int) + i.index.counts.sum = events.length := by
  have hlength := List.length_eq_length_filter_add
    (l := events) fun e => e.context.any i.index.predicates.contains
  have hcontexts := h.length_contexts
  rw [touched] at hcontexts
  have hsum : (List.replicate i.index.contexts.length (1 : Int)).sum = i.index.contexts.length := by
    simp
  rw [h.counts, h.dropped, hsum]
  omega

end Unsorted

theorem map_nameAt?_idxOf {names : List Text} {context : List Text} (h : ∀ name ∈ context, name ∈ names) :
    ((context.map names.idxOf).map Int.ofNat).map (nameAt? names) = context.map some := by
  rw [List.map_map, List.map_map]
  exact List.map_congr_left fun name hname => nameAt?_idxOf (h name hname)

theorem unsorted_build (cutoff : Int) (events : List Event) :
    Unsorted cutoff events (build ⟨.onePass, cutoff, false⟩ events events) := by
  let names := keptNames cutoff events
  let labels := keptLabels cutoff events
  have hindex : (build ⟨.onePass, cutoff, false⟩ events events).index =
      EventIndex.ofRows ((keptRows ⟨.onePass, cutoff, false⟩ events).map fun r => (r, 1)) false
        (keptPredicates cutoff events) labels := index_build _ _
  have hnames : (build ⟨.onePass, cutoff, false⟩ events events).index.predicates = names := rfl
  have hlabels : (build ⟨.onePass, cutoff, false⟩ events events).index.labels = labels := labels_build
  constructor
  case predicates => exact firstSeen_keptPredicates cutoff events
  case occurrences =>
    rw [hnames]
    exact occurrences_build _ events
  case contexts =>
    have hcontext : ∀ e : Event,
        ((row names labels (restrict names (prepare false e))).context.map Int.ofNat).map
          (nameAt? names) = (e.context.filter names.contains).map some := by
      intro e
      rw [row, context_restrict, context_prepare]
      exact map_nameAt?_idxOf fun name hname => List.contains_iff_mem.1 (List.mem_filter.1 hname).2
    rw [hnames, hindex]
    simp only [EventIndex.ofRows, keptRows, List.map_map]
    exact List.map_congr_left fun e _ => hcontext e
  case outcomes =>
    have hlabel : ∀ e ∈ touched names events, e.outcome ∈ labels := fun e he =>
      List.mem_eraseDups.2 (List.mem_map_of_mem he)
    rw [hnames, hlabels, hindex]
    simp only [EventIndex.ofRows, keptRows, List.map_map]
    exact List.map_congr_left fun e he => nameAt?_idxOf (hlabel e he)
  case labels =>
    rw [hnames, hlabels]
    exact firstSeen_eraseDups _
  case counts =>
    rw [hindex]
    simp [EventIndex.ofRows, Function.comp_def]
  case values => rfl
  case dropped => exact dropped_build ⟨.onePass, cutoff, false⟩ events

/-- Indexing without sorting keeps the events with a predicate that occurs often enough, in order;
nothing that is counted over all events is lost with the others. -/
theorem ofEvents_unsorted (cutoff : Int) (events : List Event) :
    ∃ i, ofEvents ⟨.onePass, cutoff, false⟩ events = .ok i ∧ Unsorted cutoff events i ∧
      i.index.outcomes.length = i.index.contexts.length ∧
      i.index.counts.length = i.index.contexts.length ∧
      (∀ context ∈ i.index.contexts, ∀ place ∈ context,
        0 ≤ place ∧ place < i.index.predicates.length) ∧
      (∀ outcome ∈ i.index.outcomes, 0 ≤ outcome ∧ outcome < i.index.labels.length) ∧
      (∀ k < i.index.predicates.length, i.index.occurrences[k]? =
        some (i.index.contexts.zipWith
          (fun context seen => seen * (context.count (k : Int) : Int)) i.index.counts).sum) ∧
      (i.dropped : Int) + i.index.counts.sum = events.length := by
  have h := unsorted_build cutoff events
  refine ⟨build ⟨.onePass, cutoff, false⟩ events events, rfl, h, h.length_outcomes, h.length_counts,
    ?_, ?_, ?_, h.dropped_add_counts⟩
  · intro context hc place hp
    exact h.place_inRange hc hp
  · intro outcome ho
    exact h.outcome_inRange ho
  · intro k hk
    exact h.occurrences_eq_sum hk

end Indexing

end MaxEnt
