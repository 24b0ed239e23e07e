import Mathlib
import MaxEnt.Proofs.Model.Checks
import MaxEnt.Proofs.Model.Ranking
import MaxEnt.Proofs.Table
import MaxEnt.Proofs.Training.Weights
import MaxEnt.Training.Method

namespace MaxEnt

namespace Scaling

section

variable {κ : Type} {outcomes : Nat} (g : Nat → Option κ) (w : Nat → κ)

/-- The predicate of a row of weights, of which those are left out that have no goal. -/
def ofRow (outcomes : Nat) : Predicate κ :=
  ⟨(List.range outcomes).filterMap fun o => (g o).map fun _ => ((o : Int), w o)⟩

theorem predicate_eq_ofRow :
    predicate ((List.range outcomes).map g) ((List.range outcomes).map w) = ofRow g w outcomes := by
  have hplaces : ((List.range outcomes).map fun o => (g o, w o)).zipIdx =
      (List.range outcomes).map fun o => ((g o, w o), o) := by
    apply List.ext_getElem
    · simp
    · intro o ho ho'
      simp
  rw [predicate, List.zip_map', hplaces, List.filterMap_map]
  rfl

theorem nodup_outcomes_ofRow : (ofRow g w outcomes).outcomes.Nodup := by
  rw [ofRow, Predicate.outcomes, List.map_filterMap]
  apply List.Nodup.filterMap _ List.nodup_range
  intro o o' place h h'
  simp only [Option.map_map, Option.mem_def, Option.map_eq_some_iff] at h h'
  obtain ⟨_, _, he⟩ := h
  obtain ⟨_, _, he'⟩ := h'
  exact Int.ofNat_inj.1 (he.trans he'.symm)

theorem inRange_ofRow : (ofRow g w outcomes).InRange outcomes := by
  intro place h
  rw [ofRow, Predicate.outcomes, List.map_filterMap] at h
  obtain ⟨o, ho, hplace⟩ := List.mem_filterMap.1 h
  simp only [Option.map_map, Option.map_eq_some_iff] at hplace
  obtain ⟨-, -, rfl⟩ := hplace
  have hlt := List.mem_range.1 ho
  simp only [Function.comp_apply]
  omega

theorem weight?_ofRow {o : Nat} (ho : o < outcomes) :
    (ofRow g w outcomes).weight? o = (g o).map fun _ => w o := by
  have hnodup : ((ofRow g w outcomes).weights.reverse.map Prod.fst).Nodup := by
    rw [List.map_reverse, List.nodup_reverse]
    exact nodup_outcomes_ofRow g w
  apply Option.ext
  intro x
  rw [Predicate.weight?, Table.lookup_eq_some_iff hnodup, List.mem_reverse, ofRow, List.mem_filterMap]
  constructor
  · rintro ⟨o', -, h⟩
    obtain ⟨goal, hgoal, he⟩ := Option.map_eq_some_iff.1 h
    obtain ⟨hplace, rfl⟩ := Prod.mk.inj he
    rw [← Int.ofNat_inj.1 hplace, hgoal]
    rfl
  · intro h
    obtain ⟨goal, hgoal, rfl⟩ := Option.map_eq_some_iff.1 h
    exact ⟨o, List.mem_range.2 ho, by rw [hgoal]; rfl⟩

end

variable {κ : Type} [ExactScalar κ] {outcomes : Nat}

omit [ExactScalar κ] in
theorem predicates_grid {s : Scaling κ} {names : List Text} {g : Nat → Nat → Option κ}
    (hs : s.Shaped names.length g) (w : Nat → Nat → κ) :
    s.predicates names (grid names.length s.outcomes w) =
      names.zip ((List.range names.length).map fun p => ofRow (g p) (w p) s.outcomes) := by
  rw [predicates, hs.goals]
  simp only [grid, List.zip_map', List.map_map, Function.comp_def, predicate_eq_ofRow]

omit [ExactScalar κ] in
theorem get?_predicates {s : Scaling κ} {names : List Text} {g : Nat → Nat → Option κ}
    (hs : s.Shaped names.length g) (hnodup : names.Nodup) (w : Nat → Nat → κ) (name : Text) :
    (Table.ofList (s.predicates names (grid names.length s.outcomes w))).get? name =
      if name ∈ names then
        some (ofRow (g (names.idxOf name)) (w (names.idxOf name)) s.outcomes)
      else none := by
  rw [predicates_grid hs]
  have hkeys : (names.zip ((List.range names.length).map fun p => ofRow (g p) (w p) s.outcomes)).map
      Prod.fst = names := List.map_fst_zip (by simp)
  split
  next h =>
    have hlt : names.idxOf name < names.length := List.idxOf_lt_length_iff.2 h
    rw [Table.get?_eq_some_iff, Table.entries_ofList (hkeys.symm ▸ hnodup), List.mem_iff_getElem?]
    exact ⟨names.idxOf name, by simp [hlt]⟩
  next h =>
    rw [← Option.not_isSome_iff_eq_none, Table.isSome_get?_ofList, hkeys]
    exact h

end Scaling

def placed {κ : Type} (names : List Text) (pairs : List (Text × κ)) : List (Nat × κ) :=
  (pairs.filter fun q => names.contains q.1).map fun q => (names.idxOf q.1, q.2)

namespace Scaling

variable {κ : Type} [ExactScalar κ] {names : List Text} {g : Nat → Nat → Option κ}
  {w : Nat → Nat → κ} {m : Model κ}

/-- The model has the weights of a grid under these names. -/
structure Tells (m : Model κ) (names : List Text) (g : Nat → Nat → Option κ) (w : Nat → Nat → κ) :
    Prop where
  known : ∀ name ∈ names, m.predicates.get? name =
    some (ofRow (g (names.idxOf name)) (w (names.idxOf name)) m.labels.length)
  unknown : ∀ name ∉ names, m.predicates.get? name = none

theorem Tells.weightOf_eq (h : Tells m names g w) (hw : Inactive g w) {o : Nat}
    (ho : o < m.labels.length) (name : Text) :
    m.weightOf name o = if name ∈ names then w (names.idxOf name) o else 0 := by
  rw [Model.weightOf]
  split_ifs with hname
  · simp only [h.known name hname, ← Predicate.weight?_eq_getLast?, weight?_ofRow _ _ ho]
    cases hg : g (names.idxOf name) o with
    | none => exact (hw _ o hg).symm
    | some goal => rfl
  · simp only [h.unknown name hname]

theorem Tells.score_eq (h : Tells m names g w) (hw : Inactive g w) {o : Nat}
    (ho : o < m.labels.length) (pairs : List (Text × κ)) :
    m.score pairs o = ((placed names pairs).map fun f => f.2 * w f.1 o).sum := by
  induction pairs with
  | nil => rfl
  | cons q pairs ih =>
    rw [Model.score_cons, h.weightOf_eq hw ho, ih]
    by_cases hname : q.1 ∈ names
    · simp [placed, hname]
    · simp [placed, hname]

theorem train_ok {p : Plan} {x : EventIndex} {r : Result κ} (h : train κ p x = .ok (m, r)) :
    ∃ s, solve κ p x = .ok (s, r) ∧ model x s r = .ok m := by
  rw [train, Except.bind_eq_ok_iff] at h
  obtain ⟨⟨s, r'⟩, hsolve, hmodel⟩ := h
  obtain ⟨m', hm, hresult⟩ := Except.bind_eq_ok_iff.1 hmodel
  cases hresult
  exact ⟨s, Except.mapError_eq_ok hsolve, Except.mapError_eq_ok hm⟩

theorem tells_of_model {x : EventIndex} {s : Scaling κ} {r : Result κ}
    (hs : s.Shaped x.predicates.length g) (hnodup : x.predicates.Nodup)
    (houtcomes : s.outcomes = x.labels.length)
    (hr : r.weights = grid x.predicates.length s.outcomes w) (h : model x s r = .ok m) :
    m.labels = x.labels ∧ Tells m x.predicates g w := by
  obtain ⟨hlabels, hpredicates⟩ := Model.ofTable_ok h
  have hget := get?_predicates hs hnodup w
  rw [← hr, ← hpredicates, houtcomes, ← hlabels] at hget
  refine ⟨hlabels, ?_, ?_⟩
  · intro name hname
    rw [hget, if_pos hname]
  · intro name hname
    rw [hget, if_neg hname]

theorem exists_model {x : EventIndex} {s : Scaling κ} {r : Result κ}
    (hs : s.Shaped x.predicates.length g) (hnodup : x.predicates.Nodup)
    (houtcomes : s.outcomes = x.labels.length)
    (hr : r.weights = grid x.predicates.length s.outcomes w) (htwo : 2 ≤ x.labels.length)
    (hlabels : x.labels.Nodup) : ∃ m, model x s r = .ok m := by
  refine ⟨_, Model.ofTable_eq_ok htwo hlabels ?_⟩
  intro p hp
  obtain ⟨e, he, rfl⟩ := List.mem_map.1 hp
  have hget := (Table.get?_eq_some_iff _ e.1 e.2).2 he
  rw [hr, get?_predicates hs hnodup] at hget
  split at hget
  · rw [← Option.some.inj hget, houtcomes]
    exact inRange_ofRow _ _
  · cases hget

theorem exists_train {x : EventIndex} (p : Plan) (hcheck : x.check = .ok ())
    (hplaces : ∀ e ∈ x.allExamples κ, ∀ f ∈ e.features, f.1 < x.predicates.length)
    (hnodup : x.predicates.Nodup) (htwo : 2 ≤ x.labels.length) (hlabels : x.labels.Nodup) :
    ∃ m r, train κ p x = .ok (m, r) := by
  obtain ⟨s, r, hsolve⟩ : ∃ s r, solve κ p x = .ok (s, r) := by
    rw [solve, ofIndex_eq_ok_iff.2 ⟨hcheck, rfl⟩]
    exact ⟨_, _, rfl⟩
  obtain ⟨-, houtcomes, g, w, hshaped, hweights, -⟩ := solve_grid hsolve hplaces
  obtain ⟨m, hmodel⟩ := exists_model hshaped hnodup houtcomes hweights htwo hlabels
  refine ⟨m, r, ?_⟩
  rw [train, hsolve]
  simp only [Except.mapError, bind, Except.bind, hmodel]
  rfl

end Scaling

end MaxEnt
