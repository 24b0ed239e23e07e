import MaxEnt.Proofs.Model.Layout

namespace MaxEnt

variable (f : Binary64 → Binary64)

namespace NamedPredicate

def map (p : NamedPredicate) : NamedPredicate := ⟨p.name, p.outcomes, p.params.map f⟩

theorem precedes_map (p q : NamedPredicate) : (p.map f).precedes (q.map f) = p.precedes q := rfl

end NamedPredicate

namespace PredicateGroup

def map (g : PredicateGroup) : PredicateGroup := ⟨g.outcomes, g.members.map (·.map f)⟩

theorem token_map (g : PredicateGroup) : (g.map f).token = g.token := by
  rw [token, token, map, List.length_map]

theorem cons_map (p : NamedPredicate) (gs : List PredicateGroup) :
    cons (p.map f) (gs.map (map f)) = (cons p gs).map (map f) := by
  cases gs with
  | nil => rfl
  | cons g gs =>
    by_cases h : p.outcomes = g.outcomes <;> simp [cons, map, NamedPredicate.map, h]

theorem ofList_map (ps : List NamedPredicate) :
    ofList (ps.map (·.map f)) = (ofList ps).map (map f) := by
  induction ps with
  | nil => rfl
  | cons p ps ih => rw [List.map_cons, ofList_cons, ih, cons_map, ofList_cons]

end PredicateGroup

theorem Predicate.params_map (p : Predicate Binary64) : (p.map f).params = p.params.map f := by
  simp [params, map]

def Field.map : Field → Field
  | .utf value => .utf value
  | .int value => .int value
  | .double value => .double (f value)

namespace Model

variable (m : Model Binary64)

theorem namedPredicates_map : (m.map f).namedPredicates = m.namedPredicates.map (·.map f) := by
  simp only [namedPredicates, map, Table.map, List.map_map]
  refine List.map_congr_left fun e _ => ?_
  simp [NamedPredicate.map, Predicate.outcomes_map, Predicate.params_map]

/-- Models that differ in their parameters alone have the same order of predicates. -/
theorem sorted_map : (m.map f).sorted = m.sorted.map (·.map f) := by
  rw [sorted, namedPredicates_map, sorted]
  exact (List.map_mergeSort fun p _ q _ => congrArg (!·) (NamedPredicate.precedes_map f q p)).symm

theorem fields_map (hone : f .one = .one) : (m.map f).fields = m.fields.map (Field.map f) := by
  have hlabels : (m.map f).labels = m.labels := rfl
  have htoken : ∀ g : PredicateGroup, Field.utf (g.map f).token = .utf g.token := fun g => by
    rw [g.token_map f]
  simp only [fields, sorted_map, PredicateGroup.ofList_map, hlabels, List.map_append, List.map_cons,
    List.map_map, List.length_map, List.map_flatMap, List.flatMap_map, List.map_nil, Field.map, hone,
    Function.comp_def, htoken]
  simp only [NamedPredicate.map, List.map_map, Function.comp_def]

end Model

end MaxEnt
