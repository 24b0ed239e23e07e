import MaxEnt.Proofs.Index.Sound

namespace MaxEnt

namespace Indexing

def readAgain (ix : Indexer) (events : List Event) : List Event :=
  if ix = .twoPass then Spool.replay events else events

theorem length_readAgain_le (ix : Indexer) (events : List Event) :
    (readAgain ix events).length ≤ events.length := by
  rw [readAgain]
  split
  · exact Spool.length_replay_le events
  · exact Nat.le_refl _

theorem readAgain_of_keepsValues {ix : Indexer} (h : ix.keepsValues = true) (events : List Event) :
    readAgain ix events = events := by
  cases ix with
  | onePass => rfl
  | twoPass => cases h
  | onePassRealValue => rfl

/-- Whatever the indexer is, what it gives is built from two readings, and no value is kept that is
below zero. -/
theorem ofEvents_eq_ok {s : IndexSettings} {events : List Event} {i : Indexing}
    (h : ofEvents s events = .ok i) : i = build s events (readAgain s.indexer events) ∧
      (s.indexer.keepsValues = true → ∀ e ∈ events, ∀ x ∈ e.values.getD [], x.lessThan .zero = false) := by
  obtain ⟨ix, cutoff, sort⟩ := s
  cases ix with
  | onePass => exact ⟨(Except.ok.inj h).symm, (nomatch ·)⟩
  | twoPass => exact ⟨(Except.ok.inj h).symm, (nomatch ·)⟩
  | onePassRealValue =>
    rw [ofEvents] at h
    dsimp only at h
    split at h
    · cases h
    · rename_i hnone
      refine ⟨(Except.ok.inj h).symm, fun _ e he x hx => ?_⟩
      have hnegative := List.find?_eq_none.1 hnone e he
      rw [Bool.eq_false_iff]
      exact fun hlt => hnegative (List.any_eq_true.2 ⟨x, hx, hlt⟩)

section

variable (s : IndexSettings) (counted read : List Event)

def readEvents : List Event :=
  keptEvents (keptNames s.cutoff counted) (read.map (prepare s.indexer.keepsValues))

def readLabels : List Text := outcomeLabels (readEvents s counted read)

def readRows : List Row :=
  (readEvents s counted read).map (row (keptNames s.cutoff counted) (readLabels s counted read))

def countedRows : List (Row × Nat) :=
  if s.sort then sortAndMerge (readRows s counted read)
  else (readRows s counted read).map fun r => (r, 1)

theorem index_build_read : (build s counted read).index = .ofRows (countedRows s counted read)
    s.indexer.keepsValues (keptPredicates s.cutoff counted) (readLabels s counted read) := rfl

variable {s counted read} {r : Row}

theorem exists_event_of_mem_readRows (h : r ∈ readRows s counted read) : ∃ e ∈ read,
    restrict (keptNames s.cutoff counted) (prepare s.indexer.keepsValues e) ∈
      readEvents s counted read ∧
    r = row (keptNames s.cutoff counted) (readLabels s counted read)
      (restrict (keptNames s.cutoff counted) (prepare s.indexer.keepsValues e)) := by
  obtain ⟨f, hf, rfl⟩ := List.mem_map.1 h
  have hkept := hf
  rw [readEvents, keptEvents_prepare] at hkept
  obtain ⟨e, he, rfl⟩ := List.mem_map.1 hkept
  exact ⟨e, (List.mem_filter.1 he).1, hf, rfl⟩

theorem place_lt_of_mem_readRows (h : r ∈ readRows s counted read) {place : Nat}
    (hplace : place ∈ r.context) : place < (keptPredicates s.cutoff counted).length := by
  obtain ⟨e, -, -, rfl⟩ := exists_event_of_mem_readRows h
  obtain ⟨name, hname, rfl⟩ := List.mem_map.1 hplace
  rw [context_restrict, List.mem_filter, List.contains_iff_mem] at hname
  have hlt := List.idxOf_lt_length_iff.2 hname.2
  rwa [keptNames, List.length_map] at hlt

theorem outcome_lt_of_mem_readRows (h : r ∈ readRows s counted read) :
    r.outcome < (readLabels s counted read).length := by
  obtain ⟨e, -, he, rfl⟩ := exists_event_of_mem_readRows h
  apply List.idxOf_lt_length_iff.2
  rw [readLabels, outcomeLabels, List.mem_eraseDups]
  exact List.mem_map_of_mem he

theorem length_readRows_le : (readRows s counted read).length ≤ read.length := by
  rw [readRows, List.length_map, readEvents, keptEvents_prepare, List.length_map]
  exact List.length_filter_le _ _

theorem nodup_readLabels : (readLabels s counted read).Nodup := (firstSeen_eraseDups _).nodup

theorem length_readLabels_le : (readLabels s counted read).length ≤ read.length := by
  have hlabels : readLabels s counted read ⊆ (readEvents s counted read).map Event.outcome :=
    fun _ => List.mem_eraseDups.1
  have hle := (nodup_readLabels.subperm hlabels).length_le
  have hrows : (readRows s counted read).length ≤ read.length := length_readRows_le
  rw [readRows, List.length_map] at hrows
  rw [List.length_map] at hle
  exact hle.trans hrows

theorem mem_values_readRows (h : r ∈ readRows s counted read) {x : Binary64}
    (hx : x ∈ r.values.getD []) :
    s.indexer.keepsValues = true ∧ (x = .one ∨ ∃ e ∈ read, x ∈ e.values.getD []) := by
  obtain ⟨e, he, -, rfl⟩ := exists_event_of_mem_readRows h
  obtain ⟨hkeeps, hone | hx⟩ := mem_values_prepare (mem_values_restrict hx)
  · exact ⟨hkeeps, .inl hone⟩
  · exact ⟨hkeeps, .inr ⟨e, he, hx⟩⟩

theorem regular_readRows (h : s.indexer.keepsValues = true → ∀ e ∈ read, ∀ x ∈ e.values.getD [],
    x.isNaN = false) : ∀ r ∈ readRows s counted read, r.Regular s.indexer.keepsValues := by
  intro r hr
  obtain ⟨e, he, -, rfl⟩ := exists_event_of_mem_readRows hr
  exact regular_row _ _ fun hkeeps => h hkeeps e he

theorem mem_countedRows (hregular : ∀ r ∈ readRows s counted read, r.Regular s.indexer.keepsValues)
    {r : Row × Nat} (h : r ∈ countedRows s counted read) :
    r.1 ∈ readRows s counted read ∧ 1 ≤ r.2 ∧ r.2 ≤ (readRows s counted read).length := by
  rw [countedRows] at h
  split at h
  · refine ⟨(sorted_perm hregular).mem_iff.1 (mem_merge h), (strict_sortAndMerge hregular).seen r h, ?_⟩
    rw [snd_of_mem_sortAndMerge hregular h]
    exact List.countP_le_length
  · obtain ⟨row, hrow, rfl⟩ := List.mem_map.1 h
    exact ⟨hrow, Nat.le_refl 1, List.length_pos_of_mem hrow⟩

theorem exists_mem_countedRows
    (hregular : ∀ r ∈ readRows s counted read, r.Regular s.indexer.keepsValues) {t : Row}
    (ht : t ∈ readRows s counted read) : ∃ r ∈ countedRows s counted read, r.1.equals t = true := by
  rw [countedRows]
  split
  · exact exists_mem_sortAndMerge hregular ht
  · exact ⟨(t, 1), List.mem_map_of_mem ht,
      (Row.equals_iff_key_eq (hregular t ht) (hregular t ht)).2 rfl⟩

end

theorem length_keptPredicates_le (cutoff : Int) (events : List Event) :
    (keptPredicates cutoff events).length ≤ (events.flatMap Event.context).length := by
  have hfirst := firstSeen_keptPredicates cutoff events
  have hle := (hfirst.nodup.subperm fun name hname => ((hfirst.mem_iff name).1 hname).1).length_le
  rwa [List.length_map] at hle

/-- The values that an indexer keeps are finite. -/
def FiniteValues (ix : Indexer) (events : List Event) : Prop :=
  ix.keepsValues = true → ∀ e ∈ events, ∀ x ∈ e.values.getD [], x.isFinite = true

end Indexing

/-- What an index of at most so many events is. -/
structure EventIndex.OfEvents (most : Nat) (x : EventIndex) : Prop where
  columns : ∃ predicates, x = .ofRows x.seen x.values.isSome predicates x.labels
  predicates : x.predicates.Nodup
  labels : x.labels.Nodup ∧ x.labels.length ≤ most
  regular : ∀ r ∈ x.seen, r.1.Regular x.values.isSome
  values : ∀ r ∈ x.seen, ∀ v ∈ r.1.values.getD [], v.isFinite = true ∧ v.lessThan .zero = false
  places : ∀ r ∈ x.seen, ∀ place ∈ r.1.context, place < x.predicates.length
  outcomes : ∀ r ∈ x.seen, r.1.outcome < x.labels.length
  counts : ∀ r ∈ x.seen, 1 ≤ r.2 ∧ r.2 ≤ most

namespace Indexing

section

variable {s : IndexSettings} {events : List Event} {i : Indexing}

theorem regular_of_ofEvents (h : FiniteValues s.indexer events) :
    ∀ r ∈ readRows s events (readAgain s.indexer events), r.Regular s.indexer.keepsValues := by
  apply regular_readRows
  intro hkeeps e he x hx
  rw [readAgain_of_keepsValues hkeeps] at he
  have hfinite := h hkeeps e he x hx
  rw [Binary64.isFinite, decide_eq_true_eq] at hfinite
  rw [Binary64.isNaN, decide_eq_false_iff_not]
  omega

theorem seen_of_ofEvents (hfinite : FiniteValues s.indexer events) (h : ofEvents s events = .ok i) :
    i.index.seen = countedRows s events (readAgain s.indexer events) := by
  obtain ⟨rfl, -⟩ := ofEvents_eq_ok h
  rw [index_build_read]
  apply EventIndex.seen_ofRows
  exact fun r hr => regular_of_ofEvents hfinite _ (mem_countedRows (regular_of_ofEvents hfinite) hr).1

theorem ofEvents_index (hfinite : FiniteValues s.indexer events) (h : ofEvents s events = .ok i) :
    i.index.OfEvents events.length := by
  have hregular := regular_of_ofEvents hfinite
  have hseen := seen_of_ofEvents hfinite h
  obtain ⟨hbuild, hpositive⟩ := ofEvents_eq_ok h
  have hindex : i.index = _ := (congrArg Indexing.index hbuild).trans (index_build_read ..)
  have hlength := length_readAgain_le s.indexer events
  have hkeeps : i.index.values.isSome = s.indexer.keepsValues := by
    rw [hindex]
    simp only [EventIndex.ofRows]
    cases s.indexer.keepsValues <;> rfl
  have hlabels : i.index.labels = readLabels s events (readAgain s.indexer events) := by rw [hindex]; rfl
  have hpredicates : i.index.predicates = (keptPredicates s.cutoff events).map Prod.fst := by
    rw [hindex]; rfl
  constructor
  case columns =>
    refine ⟨keptPredicates s.cutoff events, ?_⟩
    rw [hseen, hkeeps, hlabels]
    exact hindex
  case predicates =>
    rw [hpredicates]
    exact (firstSeen_keptPredicates s.cutoff events).nodup
  case labels =>
    rw [hlabels]
    exact ⟨nodup_readLabels, length_readLabels_le.trans hlength⟩
  case regular =>
    rw [hseen, hkeeps]
    exact fun r hr => hregular _ (mem_countedRows hregular hr).1
  case values =>
    rw [hseen]
    intro r hr v hv
    obtain ⟨hkeepsValues, rfl | ⟨e, he, hv⟩⟩ := mem_values_readRows (mem_countedRows hregular hr).1 hv
    · decide
    · rw [readAgain_of_keepsValues hkeepsValues] at he
      exact ⟨hfinite hkeepsValues e he v hv, hpositive hkeepsValues e he v hv⟩
  case places =>
    rw [hseen, hpredicates, List.length_map]
    exact fun r hr place hplace => place_lt_of_mem_readRows (mem_countedRows hregular hr).1 hplace
  case outcomes =>
    rw [hseen, hlabels]
    exact fun r hr => outcome_lt_of_mem_readRows (mem_countedRows hregular hr).1
  case counts =>
    rw [hseen]
    intro r hr
    obtain ⟨-, hlow, hhigh⟩ := mem_countedRows hregular hr
    exact ⟨hlow, hhigh.trans (length_readRows_le.trans hlength)⟩

end

theorem exists_seen_iff {ix : Indexer} {cutoff : Int} {events : List Event} {sort sort' : Bool}
    {i j : Indexing} (hfinite : FiniteValues ix events) (hi : ofEvents ⟨ix, cutoff, sort⟩ events = .ok i)
    (hj : ofEvents ⟨ix, cutoff, sort'⟩ events = .ok j) {P : Row → Prop}
    (hP : ∀ a b : Row, a.equals b = true → (P a ↔ P b)) :
    (∃ r ∈ i.index.seen, P r.1) ↔ ∃ r ∈ j.index.seen, P r.1 := by
  have hrows : ∀ (sort : Bool) (k : Indexing), ofEvents ⟨ix, cutoff, sort⟩ events = .ok k →
      ((∃ r ∈ k.index.seen, P r.1) ↔
        ∃ r ∈ readRows ⟨ix, cutoff, false⟩ events (readAgain ix events), P r) := by
    intro sort k hk
    have hregular := regular_of_ofEvents (s := ⟨ix, cutoff, sort⟩) hfinite
    rw [seen_of_ofEvents hfinite hk]
    constructor
    · rintro ⟨r, hr, hPr⟩
      exact ⟨r.1, (mem_countedRows hregular hr).1, hPr⟩
    · rintro ⟨t, ht, hPt⟩
      obtain ⟨r, hr, hequals⟩ := exists_mem_countedRows (s := ⟨ix, cutoff, sort⟩) hregular ht
      exact ⟨r, hr, (hP _ _ hequals).2 hPt⟩
  exact (hrows sort i hi).trans (hrows sort' j hj).symm

end Indexing

namespace EventIndex

variable {most : Nat} {x : EventIndex}

theorem OfEvents.sound (h : x.OfEvents most) (hmost : most < 2 ^ 63)
    (hpredicates : x.predicates.length < 2 ^ 63) : x.Sound := by
  obtain ⟨predicates, hx⟩ := h.columns
  have hlength : x.predicates.length = predicates.length := by
    rw [hx, ofRows, List.length_map]
  have hplaces := h.places
  rw [hlength] at hpredicates hplaces
  rw [hx]
  exact sound_ofRows h.regular hplaces h.outcomes (fun r hr => by have := h.counts r hr; omega)
    hpredicates (by have := h.labels.2; omega)

theorem OfEvents.isFinite_values (h : x.OfEvents most) :
    ∀ vs, x.values = some vs → ∀ v ∈ vs.flatten, v.isFinite = true := by
  intro vs hvs v hv
  obtain ⟨predicates, hx⟩ := h.columns
  have hkeeps : x.values.isSome = true := by rw [hvs]; rfl
  rw [hkeeps] at hx
  have hvalues : x.values = some (x.seen.map fun r => r.1.values.getD []) :=
    (congrArg EventIndex.values hx).trans rfl
  obtain rfl := Option.some.inj (hvs.symm.trans hvalues)
  obtain ⟨row, hrow, hmem⟩ := List.mem_flatten.1 hv
  obtain ⟨r, hr, rfl⟩ := List.mem_map.1 hrow
  exact (h.values r hr v hmem).1

end EventIndex

end MaxEnt
