import MaxEnt.Proofs.Index.Seen
import MaxEnt.Proofs.Training.Agreement
import MaxEnt.Proofs.Training.Ordered
import MaxEnt.Proofs.Training.Steps

namespace MaxEnt

/-- Whether the row has the predicate with a value above zero, where all have the value one if none
are kept. -/
def Row.has (place : Nat) (r : Row) : Bool :=
  match r.values with
  | none => r.context.contains place
  | some values => (r.context.zip values).any fun f => f.1 == place && Binary64.zero.lessThan f.2

/-- The outcomes of the rows that have a predicate, in order, or all outcomes with smoothing. -/
def EventIndex.activeOutcomes (x : EventIndex) (smoothing : Bool) (place : Nat) : List Nat :=
  (List.range x.labels.length).filter fun o =>
    smoothing || x.seen.any fun r => r.1.outcome == o && r.1.has place

theorem Binary64.lessThan_congr {x y : Binary64} (h : x.equals y = true) (z : Binary64) :
    z.lessThan x = z.lessThan y := by
  simp only [equals, Bool.and_eq_true, Bool.not_eq_true', beq_iff_eq] at h
  obtain ⟨⟨hx, hy⟩, hrank⟩ := h
  rw [lessThan, lessThan, hx, hy, hrank]

namespace Row

theorem any_zip_congr {xs ys : List Binary64} (h : valuesEqual xs ys = true) (place : Nat)
    (context : List Nat) :
    (context.zip xs).any (fun f => f.1 == place && Binary64.zero.lessThan f.2) =
      (context.zip ys).any fun f => f.1 == place && Binary64.zero.lessThan f.2 := by
  induction xs generalizing ys context with
  | nil =>
    cases ys with
    | nil => rfl
    | cons y ys => cases h
  | cons x xs ih =>
    cases ys with
    | nil => cases h
    | cons y ys =>
      obtain ⟨hxy, hrest⟩ := Bool.and_eq_true_iff.1 h
      cases context with
      | nil => rfl
      | cons p context =>
        rw [List.zip_cons_cons, List.zip_cons_cons, List.any_cons, List.any_cons,
          Binary64.lessThan_congr hxy, ih hrest]

theorem has_congr {a b : Row} (h : a.equals b = true) (place : Nat) : a.has place = b.has place := by
  rw [equals, Bool.and_eq_true, Bool.and_eq_true, beq_iff_eq, beq_iff_eq] at h
  obtain ⟨⟨-, hcontext⟩, hvalues⟩ := h
  rw [has, has, hcontext]
  cases hva : a.values with
  | none =>
    cases hvb : b.values with
    | none => rfl
    | some ys => simp [hva, hvb, optionalEqual] at hvalues
  | some xs =>
    cases hvb : b.values with
    | none => simp [hva, hvb, optionalEqual] at hvalues
    | some ys =>
      rw [hva, hvb] at hvalues
      exact any_zip_congr hvalues place b.context

variable {κ : Type} [LinearOrder κ] [OrderedScalar κ] {r : Row}

theorem exists_feature_iff (h : ∀ v ∈ r.values.getD [], v.isFinite = true) (place : Nat) :
    (∃ f ∈ r.features κ, f.1 = place ∧ 0 < f.2) ↔ r.has place = true := by
  rw [features, scalars, has]
  cases hv : r.values with
  | none =>
    have hpairs : r.context.zip (r.context.map fun _ => (1 : κ)) = r.context.map fun p => (p, 1) := by
      have hzip := List.zip_map' (f := id) (g := fun _ => (1 : κ)) (l := r.context)
      rwa [List.map_id] at hzip
    simp only [hpairs, List.contains_iff_mem]
    constructor
    · rintro ⟨f, hf, rfl, -⟩
      obtain ⟨p, hp, rfl⟩ := List.mem_map.1 hf
      exact hp
    · intro hplace
      exact ⟨(place, 1), List.mem_map_of_mem hplace, rfl, zero_lt_one⟩
  | some values =>
    rw [hv, Option.getD_some] at h
    simp only [List.zip_map_right, List.any_eq_true, Bool.and_eq_true, beq_iff_eq]
    constructor
    · rintro ⟨f, hf, hplace, hpos⟩
      obtain ⟨pair, hpair, rfl⟩ := List.mem_map.1 hf
      have hfinite := h pair.2 (List.of_mem_zip hpair).2
      exact ⟨pair, hpair, hplace, (Binary64.zero_lt_ofBinary64_iff hfinite).1 hpos⟩
    · rintro ⟨pair, hpair, hplace, hlt⟩
      have hfinite := h pair.2 (List.of_mem_zip hpair).2
      exact ⟨_, List.mem_map_of_mem hpair, hplace, (Binary64.zero_lt_ofBinary64_iff hfinite).2 hlt⟩

theorem features_nonneg (h : ∀ v ∈ r.values.getD [], v.isFinite = true ∧ v.lessThan .zero = false) :
    ∀ f ∈ r.features κ, 0 ≤ f.2 := by
  intro f hf
  have hscalar := (List.of_mem_zip hf).2
  rw [scalars] at hscalar
  cases hv : r.values with
  | none =>
    rw [hv] at hscalar
    obtain ⟨-, -, hone⟩ := List.mem_map.1 hscalar
    rw [← hone]
    exact zero_le_one
  | some values =>
    rw [hv] at hscalar h
    obtain ⟨v, hmem, hvalue⟩ := List.mem_map.1 hscalar
    obtain ⟨hfinite, hnegative⟩ := h v hmem
    rw [← hvalue]
    exact Binary64.zero_le_ofBinary64 hfinite hnegative

/-- What a row adds to what is observed is above zero for the predicates that it has, and nowhere
below. -/
theorem share_pos_iff (h : ∀ v ∈ r.values.getD [], v.isFinite = true ∧ v.lessThan .zero = false)
    (place o : Nat) : 0 ≤ r.share κ place o ∧
      (0 < r.share κ place o ↔ r.outcome = o ∧ r.has place = true) := by
  have hfeatures := features_nonneg (κ := κ) h
  have hterms : ∀ t ∈ (r.features κ).map fun f => if f.1 = place then f.2 else 0, 0 ≤ t := by
    rw [List.forall_mem_map]
    intro f hf
    split
    · exact hfeatures f hf
    · exact le_refl 0
  have hamount : 0 < Example.amount place (r.features κ) ↔ r.has place = true := by
    rw [Example.amount, sum_pos_iff hterms, ← exists_feature_iff (κ := κ) fun v hv => (h v hv).1]
    constructor
    · rintro ⟨t, ht, hpos⟩
      obtain ⟨f, hf, rfl⟩ := List.mem_map.1 ht
      split at hpos
      · rename_i hplace
        exact ⟨f, hf, hplace, hpos⟩
      · exact absurd hpos (lt_irrefl 0)
    · rintro ⟨f, hf, hplace, hpos⟩
      exact ⟨_, List.mem_map_of_mem hf, by rwa [if_pos hplace]⟩
  rw [share]
  by_cases ho : r.outcome = o
  · rw [if_pos ho, hamount, and_iff_right ho]
    exact ⟨List.sum_nonneg hterms, Iff.rfl⟩
  · rw [if_neg ho]
    exact ⟨le_refl 0, by simp [ho]⟩

end Row

namespace Indexing

theorem weigh_pos_iff {κ : Type} [LinearOrder κ] [OrderedScalar κ] {f : Row → κ}
    {rows : List (Row × Nat)} (hf : ∀ r ∈ rows, 0 ≤ f r.1) (hseen : ∀ r ∈ rows, 1 ≤ r.2) :
    0 < weigh f rows ↔ ∃ r ∈ rows, 0 < f r.1 := by
  have hcount : ∀ r ∈ rows, (0 : κ) < (r.2 : κ) := fun r hr => Nat.cast_pos.2 (hseen r hr)
  have hterms : ∀ t ∈ rows.map fun r => r.2 • f r.1, 0 ≤ t := by
    rw [List.forall_mem_map]
    intro r hr
    rw [nsmul_eq_mul]
    exact mul_nonneg (hcount r hr).le (hf r hr)
  rw [weigh, sum_pos_iff hterms]
  constructor
  · rintro ⟨t, ht, hpos⟩
    obtain ⟨r, hr, rfl⟩ := List.mem_map.1 ht
    rw [nsmul_eq_mul, mul_pos_iff_of_pos_left (hcount r hr)] at hpos
    exact ⟨r, hr, hpos⟩
  · rintro ⟨r, hr, hpos⟩
    refine ⟨_, List.mem_map_of_mem hr, ?_⟩
    rw [nsmul_eq_mul]
    exact mul_pos (hcount r hr) hpos

end Indexing

namespace EventIndex

variable {most : Nat} {x : EventIndex}

theorem any_seen_iff {place o : Nat} :
    (x.seen.any fun r => r.1.outcome == o && r.1.has place) = true ↔
      ∃ r ∈ x.seen, r.1.outcome = o ∧ r.1.has place = true := by
  rw [List.any_eq_true]
  simp only [Bool.and_eq_true, beq_iff_eq]

theorem OfEvents.observed_eq_grid {κ : Type} [ExactScalar κ] (h : x.OfEvents most) :
    x.observed κ = Scaling.grid x.predicates.length x.labels.length
      fun p o => Indexing.weigh (Row.share κ p o) x.seen := by
  obtain ⟨predicates, hx⟩ := h.columns
  have hlength : x.predicates.length = predicates.length := by
    rw [hx, ofRows, List.length_map]
  rw [hlength]
  exact (congrArg (observed κ) hx).trans (observed_ofRows h.regular)

theorem OfEvents.observed_pos_iff {κ : Type} [LinearOrder κ] [OrderedScalar κ] (h : x.OfEvents most)
    (place o : Nat) : 0 < Indexing.weigh (Row.share κ place o) x.seen ↔
      ∃ r ∈ x.seen, r.1.outcome = o ∧ r.1.has place = true := by
  rw [Indexing.weigh_pos_iff (fun r hr => (Row.share_pos_iff (h.values r hr) place o).1)
    fun r hr => (h.counts r hr).1]
  constructor
  · rintro ⟨r, hr, hpos⟩
    exact ⟨r, hr, (Row.share_pos_iff (h.values r hr) place o).2.1 hpos⟩
  · rintro ⟨r, hr, hhas⟩
    exact ⟨r, hr, (Row.share_pos_iff (h.values r hr) place o).2.2 hhas⟩

end EventIndex

namespace Scaling

theorem isSome_goal {κ : Type} [LinearOrder κ] [OrderedScalar κ] (replacement : Option κ) (x : κ) :
    (goal replacement x).isSome = true ↔ replacement.isSome = true ∨ 0 < x := by
  rw [goal, OrderedScalar.lt_eq]
  by_cases hx : 0 < x
  · rw [if_pos (decide_eq_true hx)]
    simp [hx]
  · rw [if_neg (by simpa using hx), Option.isSome_map]
    simp [hx]

theorem outcomes_ofRow {κ : Type} (g : Nat → Option κ) (w : Nat → κ) (outcomes : Nat) :
    (ofRow g w outcomes).outcomes =
      ((List.range outcomes).filter fun o => (g o).isSome).map Int.ofNat := by
  rw [ofRow, Predicate.outcomes, List.map_filterMap, ← List.filterMap_eq_filter, List.map_filterMap]
  apply List.filterMap_congr
  intro o _
  cases hg : g o <;> simp [Option.guard, hg]

theorem Plan.isSome_replacement {ps : Parameters} {p : Plan} (h : Plan.ofParameters ps = .ok p) :
    p.replacement.isSome = ps.smoothing.json.affirms := by
  have hreplacement := (Plan.ofParameters_eq_ok h).1
  rw [Plan.replacement?] at hreplacement
  cases haffirms : ps.smoothing.json.affirms with
  | false =>
    rw [haffirms, if_neg Bool.false_ne_true] at hreplacement
    rw [← Except.ok.inj hreplacement]
    rfl
  | true =>
    rw [haffirms, if_pos rfl] at hreplacement
    split at hreplacement
    · rw [← Except.ok.inj hreplacement]
      rfl
    · cases hreplacement

section

variable {κ : Type} [LinearOrder κ] [OrderedScalar κ] {most : Nat} {x : EventIndex} {p : Plan}

theorem shaped_of_events (h : x.OfEvents most) {s : Scaling κ} (hs : ofIndex κ p x = .ok s) :
    s.outcomes = x.labels.length ∧ s.Shaped x.predicates.length fun place o =>
      goal (p.replacement.map Scalar.ofBinary64) (Indexing.weigh (Row.share κ place o) x.seen) := by
  obtain ⟨hcheck, rfl⟩ := ofIndex_eq_ok_iff.1 hs
  exact ⟨rfl, shaped_ofExamples _ _ h.observed_eq_grid
    ((EventIndex.check_eq_ok_iff.1 hcheck).place_lt κ)⟩

theorem outcomes_of_train (h : x.OfEvents most) {m : Model κ} {r : Result κ}
    (htrain : train κ p x = .ok (m, r)) : m.labels = x.labels ∧
      m.predicates.entries.map (fun e => (e.1, e.2.outcomes)) = x.predicates.mapIdx
        fun place name => (name, (x.activeOutcomes p.replacement.isSome place).map Int.ofNat) := by
  obtain ⟨s, hsolve, hmodel⟩ := train_ok htrain
  obtain ⟨hlabels, hpredicates⟩ := Model.ofTable_ok hmodel
  obtain ⟨houtcomes, hshaped⟩ := shaped_of_events h (solve_ok hsolve).1
  obtain ⟨w, hweights, -⟩ := hshaped.weights_of_solve hsolve
  refine ⟨hlabels, ?_⟩
  have hkeys : (s.predicates x.predicates r.weights).map Prod.fst = x.predicates := by
    rw [hweights, predicates_grid hshaped]
    exact List.map_fst_zip (by simp)
  rw [hpredicates, Table.entries_ofList (hkeys.symm ▸ h.predicates), hweights, predicates_grid hshaped,
    houtcomes]
  apply List.ext_getElem
  · simp
  · intro place hplace hplace'
    simp only [List.getElem_map, List.getElem_zip, List.getElem_range, List.getElem_mapIdx,
      outcomes_ofRow]
    congr 2
    rw [EventIndex.activeOutcomes]
    apply List.filter_congr
    intro o _
    rw [Bool.eq_iff_iff, isSome_goal, h.observed_pos_iff, Option.isSome_map, Bool.or_eq_true,
      EventIndex.any_seen_iff]

end

end Scaling

namespace Indexing

open Scaling

/-- An index of no more events, with no more predicates, than 64 bits can number gives a model. It has
the labels and the predicates of the index, and a predicate has the outcomes of the rows that have it
with a value above zero, in order, or all outcomes with smoothing. These are the same whether rows are
sorted or not. -/
theorem train_active {κ : Type} [LinearOrder κ] [OrderedScalar κ] {ix : Indexer} {cutoff : Int}
    {sort : Bool} {events : List Event} {i : Indexing} (hfinite : FiniteValues ix events)
    (hevents : events.length < 2 ^ 63) (hcontexts : (events.flatMap Event.context).length < 2 ^ 63)
    (hi : ofEvents ⟨ix, cutoff, sort⟩ events = .ok i) (htwo : 2 ≤ i.index.labels.length) :
    (∀ (ps : Parameters) (p : Plan), Plan.ofParameters ps = .ok p →
      ∃ (m : Model κ) (r : Result κ), Scaling.train κ p i.index = .ok (m, r) ∧
        m.labels = i.index.labels ∧
        m.predicates.entries.map (fun e => (e.1, e.2.outcomes)) = i.index.predicates.mapIdx
          fun place name =>
            (name, (i.index.activeOutcomes ps.smoothing.json.affirms place).map Int.ofNat)) ∧
    ∀ (sort' : Bool) (j : Indexing), ofEvents ⟨ix, cutoff, sort'⟩ events = .ok j →
      j.index.labels = i.index.labels ∧ j.index.predicates = i.index.predicates ∧
        ∀ smoothing place, j.index.activeOutcomes smoothing place = i.index.activeOutcomes smoothing place := by
  have hindex := ofEvents_index (s := ⟨ix, cutoff, sort⟩) hfinite hi
  obtain ⟨hbuild, -⟩ := ofEvents_eq_ok hi
  constructor
  · intro ps p hplan
    have hpredicates : i.index.predicates.length < 2 ^ 63 := by
      have hle := length_keptPredicates_le cutoff events
      have hlength : i.index.predicates.length = (keptPredicates cutoff events).length := by
        rw [hbuild, index_build_read, EventIndex.ofRows, List.length_map]
      omega
    have hsound := hindex.sound hevents hpredicates
    obtain ⟨m, r, htrain⟩ := exists_train p (EventIndex.check_eq_ok_iff.2 hsound) (hsound.place_lt κ)
      hindex.predicates htwo hindex.labels.1
    obtain ⟨hlabels, houtcomes⟩ := outcomes_of_train hindex htrain
    rw [Plan.isSome_replacement hplan] at houtcomes
    exact ⟨m, r, htrain, hlabels, houtcomes⟩
  · intro sort' j hj
    obtain ⟨hbuild', -⟩ := ofEvents_eq_ok hj
    have hlabels : j.index.labels = i.index.labels := by
      rw [hbuild, hbuild']
      rfl
    refine ⟨hlabels, by rw [hbuild, hbuild']; rfl, fun smoothing place => ?_⟩
    rw [EventIndex.activeOutcomes, EventIndex.activeOutcomes, hlabels]
    apply List.filter_congr
    intro o _
    have hrows := exists_seen_iff hfinite hj hi (P := fun r => r.outcome = o ∧ r.has place = true)
      fun a b hab => by rw [Row.has_congr hab, Row.outcome_eq_of_equals hab]
    rw [Bool.eq_iff_iff, Bool.or_eq_true, Bool.or_eq_true, EventIndex.any_seen_iff,
      EventIndex.any_seen_iff, hrows]

theorem train_active_mixedEvents :
    letI : OrderedScalar ℝ := .real Real.exp Real.log
    FiniteValues .onePassRealValue mixedEvents ∧ ∃ i,
      ofEvents ⟨.onePassRealValue, 2, true⟩ mixedEvents = .ok i ∧ ∃ p m r,
        Plan.ofParameters {} = .ok p ∧ Scaling.train ℝ p i.index = .ok (m, r) ∧
        m.labels = [↑ "A", ↑ "B"] ∧
        m.predicates.entries.map (fun e => (e.1, e.2.outcomes)) = [(↑ "x", [0, 1]), (↑ "nil", [])] := by
  let _ : OrderedScalar ℝ := .real Real.exp Real.log
  have hfinite : FiniteValues .onePassRealValue mixedEvents := fun _ => by decide
  have hi := ofEvents_eq_build (s := ⟨.onePassRealValue, 2, true⟩) (by decide) admissible_mixedEvents
  obtain ⟨p, hp⟩ : ∃ p, Plan.ofParameters {} = .ok p := ⟨_, rfl⟩
  obtain ⟨htrained, -⟩ := train_active (κ := ℝ) hfinite (by decide) (by decide) hi
    (by rw [index_mixedEvents]; decide)
  obtain ⟨m, r, htrain, hlabels, houtcomes⟩ := htrained {} p hp
  refine ⟨hfinite, _, hi, p, m, r, hp, htrain, ?_, ?_⟩
  · rw [hlabels, index_mixedEvents]
    rfl
  · have hsmoothing : ({} : Parameters).smoothing.json.affirms = false := rfl
    rw [houtcomes, hsmoothing, index_mixedEvents]
    decide +kernel

end Indexing

end MaxEnt
