import MaxEnt.Proofs.Index.Decoding
import MaxEnt.Proofs.Index.Reading

namespace MaxEnt

section Places

variable {xs ys : List Text}

/-- The place in `ys` of the text that stands at a place in `xs`. -/
def renumber (xs ys : List Text) (k : Nat) : Nat := ys.idxOf (xs.getD k [])

theorem getElem?_renumber (hmem : ∀ t, t ∈ xs → t ∈ ys) {k : Nat} (hk : k < xs.length) :
    ys[renumber xs ys k]? = xs[k]? := by
  rw [renumber, List.getD_eq_getElem _ _ hk, List.getElem?_idxOf (hmem _ (List.getElem_mem hk)),
    List.getElem?_eq_getElem hk]

theorem renumber_idxOf {t : Text} (h : t ∈ xs) : renumber xs ys (xs.idxOf t) = ys.idxOf t := by
  have hlt := List.idxOf_lt_length_iff.2 h
  rw [renumber, List.getD_eq_getElem _ _ hlt, List.getElem_idxOf]

theorem bijOn_renumber (hxs : xs.Nodup) (hys : ys.Nodup) (hmem : ∀ t, t ∈ xs ↔ t ∈ ys) :
    Set.BijOn (renumber xs ys) (Set.Iio xs.length) (Set.Iio ys.length) := by
  have hget : ∀ k < xs.length, ys[renumber xs ys k]? = xs[k]? :=
    fun k hk => getElem?_renumber (fun t => (hmem t).1) hk
  refine ⟨fun k hk => ?_, fun k hk l hl heq => ?_, fun l hl => ?_⟩
  · have hsome := hget k hk
    rw [List.getElem?_eq_getElem hk] at hsome
    exact (List.getElem?_eq_some_iff.1 hsome).1
  · apply (List.getElem?_inj hk hxs).1
    rw [← hget k hk, ← hget l hl, heq]
  · have hl : l < ys.length := hl
    have hmem : ys[l] ∈ xs := (hmem _).2 (List.getElem_mem hl)
    refine ⟨xs.idxOf ys[l], List.idxOf_lt_length_iff.2 hmem, ?_⟩
    rw [renumber_idxOf hmem, hys.idxOf_getElem]

end Places

theorem mapM_eq_filterMap {α β : Type} {f : α → Option β} {xs : List α}
    (h : ∀ x ∈ xs, (f x).isSome = true) : xs.mapM f = some (xs.filterMap f) := by
  induction xs with
  | nil => rfl
  | cons x xs ih =>
    obtain ⟨hx, hxs⟩ := List.forall_mem_cons.1 h
    obtain ⟨y, hy⟩ := Option.isSome_iff_exists.1 hx
    rw [List.mapM_cons, hy, ih hxs, List.filterMap_cons_some hy]
    rfl

namespace Indexing

section

variable {events : List Event} {f : Event → Row} (hregular : ∀ e ∈ events, (f e).Regular false)
  (hinj : ∀ e ∈ events, ∀ e' ∈ events, f e = f e' → e = e')

include hregular hinj

theorem snd_of_mem_sortAndMerge_map {r : Row × Nat} (hr : r ∈ sortAndMerge (events.map f)) {e : Event}
    (he : e ∈ events) (hfe : f e = r.1) : r.2 = events.count e := by
  rw [snd_of_mem_sortAndMerge (List.forall_mem_map.2 hregular) hr, List.countP_map, List.count]
  apply List.countP_congr
  intro e' he'
  have hkey : (f e').key = (f e).key ↔ e' = e := by
    refine ⟨fun hkey => hinj e' he' e he ?_, fun heq => by rw [heq]⟩
    exact Row.eq_of_key_eq (hregular e' he') (hregular e he) hkey
  simp [← hfe, hkey]

/-- Rows without values that tell events apart are, sorted and merged, those of the different events,
each seen as often as its event. -/
theorem sortAndMerge_map_perm : (sortAndMerge (events.map f)).Perm
    (events.eraseDups.map fun e => (f e, events.count e)) := by
  have hrows : ∀ r ∈ events.map f, r.Regular false := List.forall_mem_map.2 hregular
  have hsorted : ∀ r ∈ sortAndMerge (events.map f), ∃ e ∈ events, f e = r.1 := fun r hr =>
    List.mem_map.1 ((sorted_perm hrows).mem_iff.1 (mem_merge hr))
  have hnodup : (events.eraseDups.map fun e => (f e, events.count e)).Nodup := by
    apply List.Nodup.map_on _ (firstSeen_eraseDups events).nodup
    intro e he e' he' heq
    exact hinj e (List.mem_eraseDups.1 he) e' (List.mem_eraseDups.1 he') (congrArg Prod.fst heq)
  rw [List.perm_ext_iff_of_nodup (nodup_of_strict (strict_sortAndMerge hrows)) hnodup]
  rintro ⟨r, n⟩
  rw [List.mem_map]
  constructor
  · intro hr
    obtain ⟨e, he, hfe⟩ := hsorted _ hr
    have hcount := snd_of_mem_sortAndMerge_map hregular hinj hr he hfe
    exact ⟨e, List.mem_eraseDups.2 he, Prod.ext hfe hcount.symm⟩
  · rintro ⟨e, he, heq⟩
    have he := List.mem_eraseDups.1 he
    obtain ⟨s, hs, hequals⟩ := exists_mem_sortAndMerge hrows (List.mem_map_of_mem he)
    obtain ⟨e', he', hfe'⟩ := hsorted s hs
    have hfe : f e = s.1 := by
      rw [← hfe'] at hequals ⊢
      exact Row.eq_of_key_eq (hregular e he) (hregular e' he') (Row.key_eq_of_equals hequals).symm
    rw [← heq, hfe, ← snd_of_mem_sortAndMerge_map hregular hinj hs he hfe]
    exact hs

end

section Orders

variable {s : IndexSettings} {events events' : List Event}

theorem row_injOn {e e' : Event} (he : e ∈ kept s events) (he' : e' ∈ kept s events)
    (h : row (keptNames s.cutoff events) (keptLabels s.cutoff events) e =
      row (keptNames s.cutoff events) (keptLabels s.cutoff events) e') : e = e' := by
  have hevent := event?_build he
  rw [h, event?_build he'] at hevent
  exact (Option.some.inj hevent).symm

theorem seen_perm (cutoff : Int) (events : List Event) :
    (build ⟨.onePass, cutoff, true⟩ events events).index.seen.Perm
      ((kept ⟨.onePass, cutoff, true⟩ events).eraseDups.map fun e =>
        (row (keptNames cutoff events) (keptLabels cutoff events) e,
          (kept ⟨.onePass, cutoff, true⟩ events).count e)) := by
  have hadmissible := admissible_onePass events
  have hregular := regular_of_admissible cutoff hadmissible true
  rw [seen_sorted cutoff hadmissible]
  rw [keptRows_eq] at hregular ⊢
  apply sortAndMerge_map_perm
  · exact List.forall_mem_map.1 hregular
  · intro e he e' he'
    exact row_injOn he he'

variable (h : events.Perm events')

include h

theorem occurrences_perm (name : Text) : occurrences events name = occurrences events' name :=
  (h.flatMap_right Event.context).count_eq name

theorem mem_keptNames_perm (cutoff : Int) (name : Text) :
    name ∈ keptNames cutoff events ↔ name ∈ keptNames cutoff events' := by
  rw [mem_keptNames, mem_keptNames, occurrences_perm h]
  simp only [h.mem_iff]

theorem kept_perm (s : IndexSettings) : (kept s events).Perm (kept s events') := by
  have hcontains : (keptNames s.cutoff events).contains = (keptNames s.cutoff events').contains := by
    funext name
    rw [Bool.eq_iff_iff, List.contains_iff_mem, List.contains_iff_mem, mem_keptNames_perm h]
  rw [kept, kept, keptEvents, keptEvents, hcontains]
  exact ((h.map _).map _).filter _

theorem mem_keptLabels_perm (s : IndexSettings) (label : Text) :
    label ∈ keptLabels s.cutoff events ↔ label ∈ keptLabels s.cutoff events' := by
  rw [keptLabels_eq, keptLabels_eq, outcomeLabels, outcomeLabels, List.mem_eraseDups,
    List.mem_eraseDups]
  exact ((kept_perm h s).map Event.outcome).mem_iff

end Orders

end Indexing

namespace EventIndex

def told? (x : EventIndex) : Option (List (Event × Nat)) :=
  x.seen.mapM fun r => (x.event? r.1).map fun e => (e, r.2)

def renumberRow (σ τ : Nat → Nat) (r : Row × Nat) : Row × Nat :=
  (⟨τ r.1.outcome, r.1.context.map σ, r.1.values⟩, r.2)

/-- One index is another with other numbers and its rows in another order. -/
structure Renumbers (σ τ : Nat → Nat) (x y : EventIndex) : Prop where
  bijOn_predicates : Set.BijOn σ (Set.Iio x.predicates.length) (Set.Iio y.predicates.length)
  bijOn_labels : Set.BijOn τ (Set.Iio x.labels.length) (Set.Iio y.labels.length)
  predicates : ∀ k < x.predicates.length, y.predicates[σ k]? = x.predicates[k]?
  occurrences : ∀ k < x.predicates.length, y.occurrences[σ k]? = x.occurrences[k]?
  labels : ∀ k < x.labels.length, y.labels[τ k]? = x.labels[k]?
  seen : (x.seen.map (renumberRow σ τ)).Perm y.seen

end EventIndex

namespace Indexing

theorem renumberRow_row {names names' labels labels' : List Text} {e : Event} (n : Nat)
    (hlabel : e.outcome ∈ labels) (hnames : ∀ name ∈ e.context, name ∈ names) :
    EventIndex.renumberRow (renumber names names') (renumber labels labels') (row names labels e, n) =
      (row names' labels' e, n) := by
  have hcontext : (e.context.map names.idxOf).map (renumber names names') =
      e.context.map names'.idxOf := by
    rw [List.map_map]
    exact List.map_congr_left fun name hname => renumber_idxOf (hnames name hname)
  simp only [EventIndex.renumberRow, row, hcontext, renumber_idxOf hlabel]

theorem told?_build (cutoff : Int) (events : List Event) : ∃ told,
    (build ⟨.onePass, cutoff, true⟩ events events).index.told? = some told ∧
      told.Perm ((kept ⟨.onePass, cutoff, true⟩ events).eraseDups.map fun e =>
        (e, (kept ⟨.onePass, cutoff, true⟩ events).count e)) := by
  let tell : Row × Nat → Option (Event × Nat) := fun r =>
    ((build ⟨.onePass, cutoff, true⟩ events events).index.event? r.1).map fun e => (e, r.2)
  have htell : ∀ e ∈ kept ⟨.onePass, cutoff, true⟩ events, ∀ n,
      tell (row (keptNames cutoff events) (keptLabels cutoff events) e, n) = some (e, n) := by
    intro e he n
    have hevent := event?_build he
    simp only [tell]
    rw [hevent]
    rfl
  have hperm := seen_perm cutoff events
  have hsome : ∀ r ∈ (build ⟨.onePass, cutoff, true⟩ events events).index.seen,
      (tell r).isSome = true := by
    intro r hr
    obtain ⟨e, he, rfl⟩ := List.mem_map.1 (hperm.mem_iff.1 hr)
    rw [htell e (List.mem_eraseDups.1 he)]
    rfl
  refine ⟨_, mapM_eq_filterMap hsome, (hperm.filterMap tell).trans (.of_eq ?_)⟩
  rw [List.filterMap_map, ← List.filterMap_eq_map]
  apply List.filterMap_congr
  intro e he
  exact htell e (List.mem_eraseDups.1 he) _

theorem nodup_keptNames (cutoff : Int) (events : List Event) : (keptNames cutoff events).Nodup :=
  (firstSeen_keptPredicates cutoff events).nodup

theorem nodup_keptLabels (cutoff : Int) (events : List Event) : (keptLabels cutoff events).Nodup :=
  (firstSeen_eraseDups _).nodup

section Orders

variable {events events' : List Event} (h : events.Perm events')

include h

theorem keptNames_perm (cutoff : Int) :
    (keptNames cutoff events).Perm (keptNames cutoff events') := by
  rw [List.perm_ext_iff_of_nodup (nodup_keptNames cutoff events) (nodup_keptNames cutoff events')]
  exact mem_keptNames_perm h cutoff

theorem keptLabels_perm (s : IndexSettings) :
    (keptLabels s.cutoff events).Perm (keptLabels s.cutoff events') := by
  rw [List.perm_ext_iff_of_nodup (nodup_keptLabels _ events) (nodup_keptLabels _ events')]
  exact mem_keptLabels_perm h s

theorem eraseDups_kept_perm (s : IndexSettings) :
    ((kept s events).eraseDups.map fun e => (e, (kept s events).count e)).Perm
      ((kept s events').eraseDups.map fun e => (e, (kept s events').count e)) := by
  have hkept := kept_perm h s
  have hdups : (kept s events).eraseDups.Perm (kept s events').eraseDups := by
    rw [List.perm_ext_iff_of_nodup (firstSeen_eraseDups _).nodup (firstSeen_eraseDups _).nodup]
    intro e
    rw [List.mem_eraseDups, List.mem_eraseDups, hkept.mem_iff]
  simp only [hkept.count_eq]
  exact hdups.map _

theorem renumbers_build (cutoff : Int) :
    EventIndex.Renumbers (renumber (keptNames cutoff events) (keptNames cutoff events'))
      (renumber (keptLabels cutoff events) (keptLabels cutoff events'))
      (build ⟨.onePass, cutoff, true⟩ events events).index
      (build ⟨.onePass, cutoff, true⟩ events' events').index := by
  have hnames := mem_keptNames_perm h cutoff
  have hlabels := mem_keptLabels_perm h ⟨.onePass, cutoff, true⟩
  have hlabel : ∀ events, (build ⟨.onePass, cutoff, true⟩ events events).index.labels =
      keptLabels cutoff events := fun events => labels_build
  constructor
  case bijOn_predicates =>
    exact bijOn_renumber (nodup_keptNames cutoff events) (nodup_keptNames cutoff events') hnames
  case bijOn_labels =>
    rw [hlabel, hlabel]
    exact bijOn_renumber (nodup_keptLabels cutoff events) (nodup_keptLabels cutoff events') hlabels
  case predicates => exact fun k hk => getElem?_renumber (fun t => (hnames t).1) hk
  case occurrences =>
    intro k hk
    have hget := getElem?_renumber (fun t => (hnames t).1) hk
    rw [occurrences_build, occurrences_build, List.getElem?_map, List.getElem?_map, hget]
    simp only [occurrences_perm h]
  case labels =>
    rw [hlabel, hlabel]
    exact fun k hk => getElem?_renumber (fun t => (hlabels t).1) hk
  case seen =>
    refine ((seen_perm cutoff events).map _).trans (.trans ?_ (seen_perm cutoff events').symm)
    have hperm := (eraseDups_kept_perm h ⟨.onePass, cutoff, true⟩).map fun e : Event × Nat =>
      (row (keptNames cutoff events') (keptLabels cutoff events') e.1, e.2)
    rw [List.map_map, List.map_map] at hperm
    rw [List.map_map]
    refine .trans (.of_eq (List.map_congr_left fun e he => ?_)) hperm
    have he := List.mem_eraseDups.1 he
    exact renumberRow_row _ (outcome_mem_keptLabels he) (mem_keptNames_of_mem_context he)

end Orders

/-- The order of the events changes the numbers only: the predicates that are kept, how often they
occur, the outcomes, what is reported and how often each row is seen stay the same. -/
theorem ofEvents_perm (cutoff : Int) {events events' : List Event} (h : events.Perm events') :
    ∃ i j, ofEvents ⟨.onePass, cutoff, true⟩ events = .ok i ∧
      ofEvents ⟨.onePass, cutoff, true⟩ events' = .ok j ∧
      (∀ x ∈ [i.index, j.index], ∃ predicates, x = .ofRows x.seen false predicates x.labels) ∧
      (i.index.predicates.zip i.index.occurrences).Perm
        (j.index.predicates.zip j.index.occurrences) ∧
      i.index.labels.Perm j.index.labels ∧ i.report = j.report ∧
      (∃ told told', i.index.told? = some told ∧ j.index.told? = some told' ∧ told.Perm told' ∧
        (told.map Prod.fst).Nodup) ∧
      ∃ σ τ, EventIndex.Renumbers σ τ i.index j.index := by
  obtain ⟨told, htold, hperm⟩ := told?_build cutoff events
  obtain ⟨told', htold', hperm'⟩ := told?_build cutoff events'
  have hlabel : ∀ events, (build ⟨.onePass, cutoff, true⟩ events events).index.labels =
      keptLabels cutoff events := fun events => labels_build
  refine ⟨build _ events events, build _ events' events', rfl, rfl, ?_, ?_, ?_, ?_,
    ⟨told, told', htold, htold', ?_, ?_⟩, _, _, renumbers_build h cutoff⟩
  · have hcolumns : ∀ events, ∃ predicates,
        (build ⟨.onePass, cutoff, true⟩ events events).index = .ofRows _ false predicates _ :=
      fun events => columns_build cutoff (admissible_onePass events) true
    exact List.forall_mem_cons.2 ⟨hcolumns events, List.forall_mem_singleton.2 (hcolumns events')⟩
  · have hzip : ∀ events, (build ⟨.onePass, cutoff, true⟩ events events).index.predicates.zip
        (build ⟨.onePass, cutoff, true⟩ events events).index.occurrences =
        (keptNames cutoff events).map fun name => (name, (occurrences events name : Int)) := by
      intro events
      have hpairs := List.zip_map' (f := id) (g := fun name => (occurrences events name : Int))
        (l := keptNames cutoff events)
      rw [List.map_id] at hpairs
      rw [occurrences_build]
      exact hpairs
    rw [hzip, hzip]
    simp only [occurrences_perm h]
    exact (keptNames_perm h cutoff).map _
  · rw [hlabel, hlabel]
    exact keptLabels_perm h ⟨.onePass, cutoff, true⟩
  · rw [table_build, table_build, hlabel, hlabel, h.length_eq, (keptNames_perm h cutoff).length_eq,
      (keptLabels_perm h ⟨.onePass, cutoff, true⟩).length_eq]
  · exact hperm.trans ((eraseDups_kept_perm h _).trans hperm'.symm)
  · have hevents : (fun e : Event => e) = Prod.fst ∘ fun e =>
        (e, (kept ⟨.onePass, cutoff, true⟩ events).count e) := rfl
    rw [(hperm.map Prod.fst).nodup_iff, List.map_map, ← hevents, List.map_id']
    exact (firstSeen_eraseDups _).nodup

/-- Read backwards, these events show another outcome and another predicate first. -/
def turnedEvents : List Event :=
  [⟨"a", .plain ["p", "q"]⟩, ⟨"b", .plain ["q"]⟩, ⟨"a", .plain ["p", "q"]⟩, ⟨"c", .plain ["r"]⟩,
    ⟨"b", .plain ["q"]⟩]

theorem ofEvents_perm_turnedEvents :
    turnedEvents.Perm turnedEvents.reverse ∧
      ∃ i j, ofEvents ⟨.onePass, 2, true⟩ turnedEvents = .ok i ∧
        ofEvents ⟨.onePass, 2, true⟩ turnedEvents.reverse = .ok j ∧
        i.index.predicates = [↑ "p", ↑ "q"] ∧ j.index.predicates = [↑ "q", ↑ "p"] ∧
        i.index.contexts = [[0, 1], [1]] ∧ j.index.contexts = [[0], [1, 0]] ∧
        ∃ σ τ, EventIndex.Renumbers σ τ i.index j.index := by
  have hperm : turnedEvents.Perm turnedEvents.reverse := turnedEvents.reverse_perm.symm
  obtain ⟨i, j, hi, hj, -, -, -, -, -, hrenumbers⟩ := ofEvents_perm 2 hperm
  have hforwards : (ofEvents ⟨.onePass, 2, true⟩ turnedEvents).map
      (fun i => (i.index.predicates, i.index.contexts)) =
      .ok ([↑ "p", ↑ "q"], [[0, 1], [1]]) := by cbv
  have hbackwards : (ofEvents ⟨.onePass, 2, true⟩ turnedEvents.reverse).map
      (fun i => (i.index.predicates, i.index.contexts)) =
      .ok ([↑ "q", ↑ "p"], [[0], [1, 0]]) := by cbv
  rw [hi] at hforwards
  rw [hj] at hbackwards
  obtain ⟨hpredicates, hcontexts⟩ := Prod.mk.inj (Except.ok.inj hforwards)
  obtain ⟨hpredicates', hcontexts'⟩ := Prod.mk.inj (Except.ok.inj hbackwards)
  exact ⟨hperm, i, j, hi, hj, hpredicates, hpredicates', hcontexts, hcontexts', hrenumbers⟩

end Indexing

end MaxEnt
