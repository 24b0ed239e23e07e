import MaxEnt.Proofs.Event.HashStream
import MaxEnt.Proofs.Index.Kept

namespace MaxEnt.Indexing

/-- The indexer keeps values, and one of the events is below zero. -/
def HasNegative (ix : Indexer) (events : List Event) : Prop :=
  ix = .onePassRealValue ∧ ∃ e ∈ events, ∃ x ∈ e.values.getD [], x.lessThan .zero = true

theorem ofEvents_of_negative {s : IndexSettings} {events : List Event}
    (h : HasNegative s.indexer events) : ∃ n, ofEvents s events = .error n := by
  obtain ⟨hix, e, he, x, hx, hnegative⟩ := h
  have hfind : (events.find? hasNegative).isSome = true :=
    List.find?_isSome.2 ⟨e, he, List.any_eq_true.2 ⟨x, hx, hnegative⟩⟩
  obtain ⟨e', he'⟩ := Option.isSome_iff_exists.1 hfind
  rw [ofEvents, hix]
  simp only [he']
  exact ⟨_, rfl⟩

theorem ofEvents_of_encodable {s : IndexSettings} {events : List Event}
    (h : ∀ e ∈ events, e.Encodable) (hnegative : ¬ HasNegative s.indexer events) :
    ofEvents s events = .ok (build s events events) := by
  rw [ofEvents]
  cases hix : s.indexer with
  | onePass => rfl
  | twoPass =>
    have hreplay := Spool.replay_eq fun e he => (h e he).unpaired
    have hbuild := build_map_prepare s events events
    rw [hix] at hbuild
    simp only [hreplay]
    exact congrArg Except.ok hbuild
  | onePassRealValue =>
    have hnone : events.find? hasNegative = none := by
      rw [List.find?_eq_none]
      intro e he hany
      obtain ⟨x, hx, hlt⟩ := List.any_eq_true.1 hany
      exact hnegative ⟨hix, e, he, x, hx, hlt⟩
    simp only [hnone]

theorem mem_keptNames {cutoff : Int} {events : List Event} {name : Text} :
    name ∈ keptNames cutoff events ↔
      (∃ e ∈ events, name ∈ e.context) ∧ cutoff ≤ occurrences events name := by
  rw [keptNames, (firstSeen_keptPredicates cutoff events).mem_iff, List.mem_flatMap]

def Frequent (cutoff : Int) (events : List Event) (e : Event) : Prop :=
  ∃ name ∈ e.context, cutoff ≤ occurrences events name

theorem mem_touched {cutoff : Int} {events : List Event} {e : Event} :
    e ∈ touched (keptNames cutoff events) events ↔ e ∈ events ∧ Frequent cutoff events e := by
  rw [touched, List.mem_filter]
  apply and_congr_right
  intro he
  rw [List.any_eq_true]
  apply exists_congr
  intro name
  apply and_congr_right
  intro hname
  rw [List.contains_iff_mem, mem_keptNames]
  exact and_iff_right ⟨e, he, hname⟩

theorem mem_keptLabels {cutoff : Int} {events : List Event} {label : Text} :
    label ∈ keptLabels cutoff events ↔ ∃ e ∈ events, Frequent cutoff events e ∧ e.outcome = label := by
  rw [keptLabels, (firstSeen_eraseDups _).mem_iff, and_true, List.mem_map]
  simp only [mem_touched, and_assoc]

theorem texts_of_ofEvents {s : IndexSettings} {events : List Event} {i : Indexing}
    (hevents : ∀ e ∈ events, e.Encodable) (h : ofEvents s events = .ok i) :
    (∀ label ∈ i.index.labels, ∃ e ∈ events, e.outcome = label) ∧
      ∀ name ∈ i.index.predicates, ∃ e ∈ events, name ∈ e.context := by
  by_cases hnegative : HasNegative s.indexer events
  · obtain ⟨n, hn⟩ := ofEvents_of_negative hnegative
    rw [hn] at h
    cases h
  · rw [ofEvents_of_encodable hevents hnegative] at h
    obtain rfl := Except.ok.inj h
    rw [index_build]
    constructor
    · intro label hlabel
      obtain ⟨e, he, -, houtcome⟩ := mem_keptLabels.1 hlabel
      exact ⟨e, he, houtcome⟩
    · intro name hname
      exact (mem_keptNames.1 hname).1

/-- The events with a predicate that occurs often enough have no two outcomes. -/
def OneOutcome (cutoff : Int) (events : List Event) : Prop :=
  ∀ e ∈ events, ∀ f ∈ events, Frequent cutoff events e → Frequent cutoff events f →
    e.outcome = f.outcome

theorem length_le_one_iff {α : Type} {xs : List α} (h : xs.Nodup) :
    xs.length ≤ 1 ↔ ∀ a ∈ xs, ∀ b ∈ xs, a = b := by
  match xs, h with
  | [], _ => simp
  | [a], _ => simp
  | a :: b :: xs, h =>
    have hab : a ≠ b := by
      rintro rfl
      simp at h
    refine iff_of_false (by simp) fun hall => hab ?_
    exact hall a (by simp) b (by simp)

theorem length_keptLabels_le_one {cutoff : Int} {events : List Event} :
    (keptLabels cutoff events).length ≤ 1 ↔ OneOutcome cutoff events := by
  have hseen := firstSeen_eraseDups
    ((touched (keptNames cutoff events) events).map Event.outcome)
  rw [keptLabels, length_le_one_iff hseen.nodup]
  simp only [hseen.mem_iff, and_true, List.forall_mem_map, mem_touched, OneOutcome]
  constructor
  · intro h e he f hf hfrequent hfrequent'
    exact h e ⟨he, hfrequent⟩ f ⟨hf, hfrequent'⟩
  · intro h e he f hf
    exact h e he.1 f hf.1 he.2 hf.2

def counts (tokens outcomes predicates : Nat) : List (Text × Json) :=
  [("Number of Event Tokens", .string (Numeral.ofNat tokens)),
    ("Number of Outcomes", .string (Numeral.ofNat outcomes)),
    ("Number of Predicates", .string (Numeral.ofNat predicates))]

theorem report_build (s : IndexSettings) (counted kept : List Event) :
    (build s counted kept).report.map .string = .ofList (counts counted.length
      (build s counted kept).index.labels.length (keptNames s.cutoff counted).length) := by
  rw [keptNames, List.length_map]
  rfl

theorem report_ofEvents {s : IndexSettings} {events : List Event} {i : Indexing}
    (h : ofEvents s events = .ok i) : i.report.map .string =
      .ofList (counts events.length i.index.labels.length (keptNames s.cutoff events).length) := by
  rw [ofEvents] at h
  split at h
  · obtain rfl := Except.ok.inj h
    exact report_build s events events
  · obtain rfl := Except.ok.inj h
    exact report_build s events (Spool.replay events)
  · split at h
    · cases h
    · obtain rfl := Except.ok.inj h
      exact report_build s events events

end MaxEnt.Indexing
