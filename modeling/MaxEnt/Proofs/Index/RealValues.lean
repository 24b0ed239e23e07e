import MaxEnt.Proofs.Index.Decoding
import MaxEnt.Proofs.Index.Reading
import MaxEnt.Proofs.Training.Phases

namespace MaxEnt

namespace Row

def bare (r : Row) : Row := { r with values := none }

theorem regular_bare (r : Row) : r.bare.Regular false := by
  refine ⟨rfl, ?_, ?_⟩
  · intro values hvalues
    cases hvalues
  · intro x hx
    cases hx

theorem equals_self_bare (r : Row) : r.bare.equals r.bare = true :=
  (equals_iff_key_eq r.regular_bare r.regular_bare).2 rfl

theorem bare_eq_of_equals {a b : Row} (h : a.equals b = true) : a.bare = b.bare := by
  rw [equals, Bool.and_eq_true, Bool.and_eq_true, beq_iff_eq, beq_iff_eq] at h
  obtain ⟨⟨houtcome, hcontext⟩, -⟩ := h
  rw [bare, bare, houtcome, hcontext]

/-- The values are compared last, so rows in order are in order without them. -/
theorem key_bare_le {a b : Row} (h : a.key ≤ b.key) : a.bare.key ≤ b.bare.key := by
  rw [key, key, Prod.Lex.toLex_le_toLex] at h ⊢
  obtain hlt | ⟨houtcome, h⟩ := h
  · exact .inl hlt
  · refine .inr ⟨houtcome, ?_⟩
    rw [Prod.Lex.toLex_le_toLex] at h ⊢
    obtain hlt | ⟨hcontext, -⟩ := h
    · exact .inl hlt
    · exact .inr ⟨hcontext, le_refl _⟩

end Row

namespace Indexing

section Gathering

def addRow (r : Row) (n : Nat) : List (Row × Nat) → List (Row × Nat)
  | [] => [(r, n)]
  | (s, m) :: rs => if r.equals s then (r, m + n) :: rs else (r, n) :: (s, m) :: rs

/-- The rows without their values. Where equal ones stand together it is added up how often they were
seen. -/
def gather (rows : List (Row × Nat)) : List (Row × Nat) :=
  rows.foldr (fun r => addRow r.1.bare r.2) []

theorem countRow_eq_addRow (r : Row) (rows : List (Row × Nat)) : countRow r rows = addRow r 1 rows := by
  cases rows <;> rfl

theorem addRow_addRow {r : Row} (h : r.equals r = true) (m n : Nat) (rows : List (Row × Nat)) :
    addRow r m (addRow r n rows) = addRow r (n + m) rows := by
  cases rows with
  | nil => simp only [addRow, if_pos h]
  | cons s rows =>
    obtain ⟨s, k⟩ := s
    by_cases hs : r.equals s = true
    · simp only [addRow, if_pos hs, if_pos h, Nat.add_assoc]
    · simp only [addRow, if_neg hs, if_pos h]

theorem gather_countRow (r : Row) (rows : List (Row × Nat)) :
    gather (countRow r rows) = countRow r.bare (gather rows) := by
  rw [countRow_eq_addRow r.bare]
  cases rows with
  | nil => rfl
  | cons s rows =>
    obtain ⟨s, n⟩ := s
    rw [countRow]
    by_cases h : r.equals s = true
    · rw [if_pos h]
      simp only [gather, List.foldr_cons]
      rw [← Row.bare_eq_of_equals h, addRow_addRow r.equals_self_bare]
    · rw [if_neg h]
      rfl

theorem gather_merge (rows : List Row) : gather (merge rows) = merge (rows.map Row.bare) := by
  induction rows with
  | nil => rfl
  | cons r rows ih =>
    have hgather := gather_countRow r (merge rows)
    rw [ih] at hgather
    exact hgather

/-- Sorting by the values as well puts the rows in the order in which they stand without them. -/
theorem map_bare_sorted {keepsValues : Bool} {rows : List Row}
    (h : ∀ r ∈ rows, r.Regular keepsValues) :
    (sorted rows).map Row.bare = sorted (rows.map Row.bare) := by
  have hbare : ∀ r ∈ rows.map Row.bare, r.Regular false :=
    List.forall_mem_map.2 fun r _ => r.regular_bare
  have hperm : ((sorted rows).map Row.bare).Perm (sorted (rows.map Row.bare)) :=
    ((sorted_perm h).map Row.bare).trans (sorted_perm hbare).symm
  have hordered : ((sorted rows).map Row.bare).Pairwise fun a b => a.key ≤ b.key := by
    rw [List.pairwise_map]
    exact (pairwise_sorted h).imp Row.key_bare_le
  apply hperm.eq_of_pairwise _ hordered (pairwise_sorted hbare)
  intro a b ha hb hab hba
  have ha := hbare a ((sorted_perm hbare).mem_iff.1 (hperm.mem_iff.1 ha))
  have hb := hbare b ((sorted_perm hbare).mem_iff.1 hb)
  exact Row.eq_of_key_eq ha hb (le_antisymm hab hba)

theorem gather_sortAndMerge {keepsValues : Bool} {rows : List Row}
    (h : ∀ r ∈ rows, r.Regular keepsValues) :
    gather (sortAndMerge rows) = sortAndMerge (rows.map Row.bare) := by
  rw [sortAndMerge, gather_merge, map_bare_sorted h]
  rfl

end Gathering

/-- The predicates of an event that are among the names, with their values, which are one where the
event has none. -/
def keptPairs (names : List Text) (e : Event) : List (Text × Binary64) :=
  (e.context.zip (e.values.getD (List.replicate e.context.length .one))).filter
    fun p => names.contains p.1

theorem restrict_prepare_true (names : List Text) (e : Event) :
    restrict names (prepare true e) = ⟨e.outcome, .valued (keptPairs names e)⟩ := by
  obtain ⟨outcome, features⟩ := e
  cases features with
  | plain context =>
    have hzip : context.zip (List.replicate context.length Binary64.one) =
        context.map fun name => (name, Binary64.one) := by
      have hpairs := List.zip_map' (f := id) (g := fun _ => Binary64.one) (l := context)
      rwa [List.map_id, List.map_const'] at hpairs
    simp only [restrict, prepare, if_true, Features.withValues, Features.filter, keptPairs,
      Event.context, Event.values, Option.getD_none, hzip]
  | valued pairs =>
    simp only [restrict, prepare, if_true, Features.withValues, Features.filter, keptPairs,
      Event.context, Event.values, Option.getD_some, List.zip_map']
    simp

theorem values_restrict_prepare_false (names : List Text) (e : Event) :
    (restrict names (prepare false e)).values = none := by
  obtain ⟨outcome, features⟩ := e
  cases features <;> rfl

theorem bare_row (names labels : List Text) (e : Event) :
    (row names labels (restrict names (prepare true e))).bare =
      row names labels (restrict names (prepare false e)) := by
  rw [row, row, values_restrict_prepare_false]
  simp only [Row.bare, context_restrict, context_prepare]
  rfl

theorem map_bare_keptRows (cutoff : Int) (sort : Bool) (events : List Event) :
    (keptRows ⟨.onePassRealValue, cutoff, sort⟩ events).map Row.bare =
      keptRows ⟨.onePass, cutoff, sort⟩ events := by
  rw [keptRows, List.map_map]
  exact List.map_congr_left fun e _ => bare_row _ _ e

theorem kept_realValue (cutoff : Int) (sort : Bool) (events : List Event) :
    kept ⟨.onePassRealValue, cutoff, sort⟩ events = (touched (keptNames cutoff events) events).map
      fun e => ⟨e.outcome, .valued (keptPairs (keptNames cutoff events) e)⟩ := by
  rw [kept_eq]
  exact List.map_congr_left fun e _ => restrict_prepare_true _ e

/-- What an index with values of events is to one without: predicates, outcomes and report are the
same, the rows tell what values the events have for the kept predicates, and without the values, equal
neighbours counted together, they are the same rows. -/
structure Refines (sort : Bool) (events : List Event) (i j : Indexing) : Prop where
  predicates : i.index.predicates = j.index.predicates
  occurrences : i.index.occurrences = j.index.occurrences
  labels : i.index.labels = j.index.labels
  report : i.report = j.report
  dropped : i.dropped = j.dropped
  columns : ∃ predicates, i.index = .ofRows i.index.seen true predicates i.index.labels ∧
    j.index = .ofRows j.index.seen false predicates j.index.labels
  values : ∀ r ∈ i.index.seen, ∃ values, r.1.values = some values ∧
    values.length = r.1.context.length
  told : ∀ r ∈ i.index.seen, ∃ e ∈ touched i.index.predicates events,
    i.index.event? r.1 = some ⟨e.outcome, .valued (keptPairs i.index.predicates e)⟩
  covered : ∀ e ∈ touched i.index.predicates events, ∃ r ∈ i.index.seen,
    r.1.equals (row i.index.predicates i.index.labels
      ⟨e.outcome, .valued (keptPairs i.index.predicates e)⟩) = true
  inOrder : sort = false → i.index.events? = some ((touched i.index.predicates events).map
    fun e => ⟨e.outcome, .valued (keptPairs i.index.predicates e)⟩)
  seen : j.index.seen = if sort then gather i.index.seen else i.index.seen.map fun r => (r.1.bare, r.2)

section

variable (cutoff : Int) (sort : Bool) {events : List Event}

theorem seen_bare (h : Admissible .onePassRealValue events) :
    (build ⟨.onePass, cutoff, sort⟩ events events).index.seen =
      if sort then gather (build ⟨.onePassRealValue, cutoff, sort⟩ events events).index.seen
      else (build ⟨.onePassRealValue, cutoff, sort⟩ events events).index.seen.map
        fun r => (r.1.bare, r.2) := by
  have hplain := admissible_onePass events
  have hregular := regular_of_admissible cutoff h sort
  have hrows := map_bare_keptRows cutoff sort events
  cases sort with
  | false =>
    rw [seen_unsorted cutoff hplain, seen_unsorted cutoff h, ← hrows, List.map_map, List.map_map]
    rfl
  | true =>
    rw [seen_sorted cutoff hplain, seen_sorted cutoff h, ← hrows]
    exact (gather_sortAndMerge hregular).symm

theorem refines_build (h : Admissible .onePassRealValue events) :
    Refines sort events (build ⟨.onePassRealValue, cutoff, sort⟩ events events)
      (build ⟨.onePass, cutoff, sort⟩ events events) := by
  have hplain := admissible_onePass events
  have hnames : (build ⟨.onePassRealValue, cutoff, sort⟩ events events).index.predicates =
      keptNames cutoff events := rfl
  have hlabels : (build ⟨.onePassRealValue, cutoff, sort⟩ events events).index.labels =
      keptLabels cutoff events := labels_build
  have hlabels' : (build ⟨.onePass, cutoff, sort⟩ events events).index.labels =
      keptLabels cutoff events := labels_build
  have hkept := kept_realValue cutoff sort events
  obtain ⟨rows, hindex, hregular, hmem, hcover⟩ := exists_rows_build cutoff h sort
  have hseen : (build ⟨.onePassRealValue, cutoff, sort⟩ events events).index.seen = rows := by
    rw [hindex]
    exact EventIndex.seen_ofRows hregular _ _
  constructor
  case predicates => rfl
  case occurrences => rfl
  case labels => rw [hlabels, hlabels']
  case report => rw [table_build, table_build, hlabels, hlabels']
  case dropped => rw [dropped_build, dropped_build]
  case columns =>
    refine ⟨keptPredicates cutoff events, ?_, ?_⟩
    · rw [hseen, hlabels, hindex]
      rfl
    · obtain ⟨rows', hindex', hregular', -⟩ := exists_rows_build cutoff hplain sort
      rw [hlabels', hindex', EventIndex.seen_ofRows hregular']
      rfl
  case values =>
    rw [hseen]
    intro r hr
    obtain ⟨values, hvalues⟩ := Option.isSome_iff_exists.1 (hregular r hr).isSome_values
    exact ⟨values, hvalues, (hregular r hr).length_values values hvalues⟩
  case told =>
    rw [hseen, hnames]
    intro r hr
    obtain ⟨told, htold, hevent⟩ := exists_event?_build (hmem r hr)
    rw [hkept] at htold
    obtain ⟨e, he, rfl⟩ := List.mem_map.1 htold
    exact ⟨e, he, hevent⟩
  case covered =>
    rw [hseen, hnames, hlabels]
    intro e he
    apply hcover
    apply row_mem_keptRows (s := ⟨.onePassRealValue, cutoff, sort⟩)
    rw [hkept]
    exact List.mem_map_of_mem he
  case inOrder =>
    rintro rfl
    rw [events?_unsorted cutoff h, hkept]
    rfl
  case seen => exact seen_bare cutoff sort h

end

/-- An index that keeps values is one without values, in more rows where the values differ. A value
below zero is refused wherever it stands, and nothing is reported then. -/
theorem ofEvents_realValue (cutoff : Int) (sort : Bool) {events : List Event}
    (h : ∀ e ∈ events, ∀ x ∈ e.values.getD [], x.isNaN = false) :
    ((∃ n, ofEvents ⟨.onePassRealValue, cutoff, sort⟩ events = .error n) ↔
      ∃ e ∈ events, ∃ x ∈ e.values.getD [], x.lessThan .zero = true) ∧
    (∀ n, ofEvents ⟨.onePassRealValue, cutoff, sort⟩ events = .error n →
      ∀ {ε : Type} (t : Trainer), t.parameters.cutoff = .proper (some cutoff) →
        t.index .onePassRealValue sort (.ofList events : Drain (TrainingError ε) Event) =
          { result := .error (.negative n), trainer := t }) ∧
    ((∀ e ∈ events, ∀ x ∈ e.values.getD [], x.lessThan .zero = false) →
      ∃ i j, ofEvents ⟨.onePassRealValue, cutoff, sort⟩ events = .ok i ∧
        ofEvents ⟨.onePass, cutoff, sort⟩ events = .ok j ∧ Refines sort events i j) := by
  have hbuild : (∀ e ∈ events, ∀ x ∈ e.values.getD [], x.lessThan .zero = false) →
      ofEvents ⟨.onePassRealValue, cutoff, sort⟩ events =
        .ok (build ⟨.onePassRealValue, cutoff, sort⟩ events events) :=
    fun hpositive => ofEvents_eq_build Indexer.noConfusion
      fun _ e he x hx => ⟨h e he x hx, hpositive e he x hx⟩
  refine ⟨⟨?_, ?_⟩, ?_, ?_⟩
  · rintro ⟨n, hn⟩
    by_contra hnone
    push Not at hnone
    rw [hbuild fun e he x hx => Bool.eq_false_iff.2 (hnone e he x hx)] at hn
    cases hn
  · intro hnegative
    exact ofEvents_of_negative ⟨rfl, hnegative⟩
  · intro n hn ε t hcutoff
    exact Trainer.index_of_error hcutoff hn
  · intro hpositive
    refine ⟨_, _, hbuild hpositive, rfl, refines_build cutoff sort ?_⟩
    exact fun _ e he x hx => ⟨h e he x hx, hpositive e he x hx⟩

/-- One predicate between others occurs once, zeros have both signs, and one value is greater. -/
def gradedEvents : List Event :=
  [⟨"b", .valued [("p", .one), ("rare", ⟨0x4000000000000000⟩), ("q", .zero)]⟩,
    ⟨"b", .valued [("p", ⟨0x4000000000000000⟩), ("q", .zero)]⟩,
    ⟨"b", .valued [("p", .one), ("q", .ofMagnitude true 0)]⟩, ⟨"a", .plain ["q"]⟩]

def belowZero : List Event := ⟨"a", .valued [("low", ⟨0xBFF0000000000000⟩)]⟩ :: gradedEvents

theorem ofEvents_realValue_gradedEvents :
    (∀ e ∈ belowZero, ∀ x ∈ e.values.getD [], x.isNaN = false) ∧
      (∃ i j, ofEvents ⟨.onePassRealValue, 2, true⟩ gradedEvents = .ok i ∧
        ofEvents ⟨.onePass, 2, true⟩ gradedEvents = .ok j ∧ Refines true gradedEvents i j ∧
        i.index.counts = [2, 1, 1] ∧ j.index.counts = [3, 1]) ∧
      ∃ n, ofEvents ⟨.onePassRealValue, 2, true⟩ belowZero = .error n := by
  have hnumbers : ∀ e ∈ belowZero, ∀ x ∈ e.values.getD [], x.isNaN = false := by decide
  have hpositive : ∀ e ∈ gradedEvents, ∀ x ∈ e.values.getD [], x.lessThan .zero = false := by decide
  obtain ⟨-, -, hrefines⟩ := ofEvents_realValue 2 true (List.forall_mem_cons.1 hnumbers).2
  obtain ⟨i, j, hi, hj, hrefines⟩ := hrefines hpositive
  obtain ⟨hraises, -, -⟩ := ofEvents_realValue 2 true hnumbers
  have hvalued : (ofEvents ⟨.onePassRealValue, 2, true⟩ gradedEvents).map (·.index.counts) =
      .ok [2, 1, 1] := by cbv
  have hplain : (ofEvents ⟨.onePass, 2, true⟩ gradedEvents).map (·.index.counts) =
      .ok [3, 1] := by cbv
  rw [hi] at hvalued
  rw [hj] at hplain
  exact ⟨hnumbers, ⟨i, j, hi, hj, hrefines, Except.ok.inj hvalued, Except.ok.inj hplain⟩,
    hraises.2 (by decide)⟩

end Indexing

end MaxEnt
