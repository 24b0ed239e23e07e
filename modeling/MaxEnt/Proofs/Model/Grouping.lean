import Mathlib
import MaxEnt.Proofs.Model.Order

namespace MaxEnt

def rank (outcomes : List Int) : Nat ×ₗ List Int := toLex (outcomes.length, outcomes)

theorem rank_injective : Function.Injective rank := by
  intro a b h
  rw [rank, rank, EmbeddingLike.apply_eq_iff_eq, Prod.mk.injEq] at h
  exact h.2

theorem rank_lt_iff (a b : List Int) : rank a < rank b ↔ List.Shortlex (· < ·) a b := by
  rw [rank, rank, Prod.Lex.toLex_lt_toLex, List.shortlex_def]
  rfl

theorem NamedPredicate.rank_le_of_key_le {p q : NamedPredicate} (h : p.key ≤ q.key) :
    rank p.outcomes ≤ rank q.outcomes := by
  rw [key, key, Prod.Lex.toLex_le_toLex, Prod.Lex.toLex_le_toLex] at h
  rw [rank, rank, Prod.Lex.toLex_le_toLex]
  rcases h with h | ⟨hlength, h | ⟨houtcomes, -⟩⟩
  · exact .inl h
  · exact .inr ⟨hlength, h.le⟩
  · exact .inr ⟨hlength, houtcomes.le⟩

namespace PredicateGroup

namespace Runs

variable {ps : List NamedPredicate} {gs : List PredicateGroup}

theorem toFinset_outcomes (h : Runs ps gs) : (gs.map PredicateGroup.outcomes).toFinset =
    (ps.map NamedPredicate.outcomes).toFinset := by
  ext outcomes
  simp only [List.mem_toFinset, List.mem_map, ← h.members, List.mem_flatMap]
  constructor
  · rintro ⟨g, hg, rfl⟩
    obtain ⟨p, hp, -, houtcomes⟩ := h.exists_member hg
    exact ⟨p, ⟨g, hg, hp⟩, houtcomes⟩
  · rintro ⟨p, ⟨g, hg, hp⟩, rfl⟩
    exact ⟨g, hg, (h.outcomes g hg p hp).symm⟩

theorem card_le_length (h : Runs ps gs) :
    (ps.map NamedPredicate.outcomes).toFinset.card ≤ gs.length := by
  rw [← h.toFinset_outcomes, ← List.length_map (f := PredicateGroup.outcomes)]
  exact List.toFinset_card_le _

theorem length_eq_card (h : Runs ps gs) (hnodup : (gs.map PredicateGroup.outcomes).Nodup) :
    gs.length = (ps.map NamedPredicate.outcomes).toFinset.card := by
  rw [← h.toFinset_outcomes, List.toFinset_card_of_nodup hnodup, List.length_map]

theorem pairwise_shortlex (h : Runs ps gs)
    (hps : ps.Pairwise fun p q => rank p.outcomes ≤ rank q.outcomes) :
    gs.Pairwise fun g h => List.Shortlex (· < ·) g.outcomes h.outcomes := by
  have hle : gs.Pairwise fun g h => rank g.outcomes ≤ rank h.outcomes := by
    rw [← h.members, List.pairwise_flatMap] at hps
    apply hps.2.imp_of_mem
    intro g k hg hk hall
    obtain ⟨p, hp, -, houtcomes⟩ := h.exists_member hg
    obtain ⟨q, hq, -, houtcomes'⟩ := h.exists_member hk
    rw [← houtcomes, ← houtcomes']
    exact hall p hp q hq
  -- Neighbours differ, so each of them comes strictly before the next, and that is transitive.
  have hlt : gs.IsChain fun g h => rank g.outcomes < rank h.outcomes := by
    rw [List.isChain_iff_forall_rel_of_append_cons_cons]
    intro g k before after hgs
    have hne := List.isChain_iff_forall_rel_of_append_cons_cons.1 h.neighbours hgs
    have hgk := List.isChain_iff_forall_rel_of_append_cons_cons.1 hle.isChain hgs
    exact lt_of_le_of_ne hgk fun heq => hne (rank_injective heq)
  have htrans : IsTrans PredicateGroup fun g h => rank g.outcomes < rank h.outcomes :=
    ⟨fun _ _ _ hab hbc => hab.trans hbc⟩
  exact (List.isChain_iff_pairwise.1 hlt).imp (rank_lt_iff _ _).1

end Runs

end PredicateGroup

namespace Model

variable (m : Model Binary64)

theorem nodup_names_sorted : (m.sorted.map NamedPredicate.name).Nodup := by
  rw [(m.sorted_perm.map NamedPredicate.name).nodup_iff, namedPredicates, List.map_map]
  exact m.predicates.nodup

theorem pairwise_key_lt_sorted : m.sorted.Pairwise fun p q => p.key < q.key := by
  have hnames := List.pairwise_map.1 m.nodup_names_sorted
  apply (m.pairwise_sorted.and hnames).imp
  rintro p q ⟨hle, hne⟩
  exact lt_of_le_of_ne hle fun heq => hne (NamedPredicate.name_eq_of_key_eq heq)

theorem runs_groups : PredicateGroup.Runs m.sorted m.groups := PredicateGroup.runs_ofList m.sorted

theorem pairwise_shortlex_groups :
    m.groups.Pairwise fun g h => List.Shortlex (· < ·) g.outcomes h.outcomes :=
  m.runs_groups.pairwise_shortlex (m.pairwise_sorted.imp NamedPredicate.rank_le_of_key_le)

theorem nodup_outcomes_groups : (m.groups.map PredicateGroup.outcomes).Nodup := by
  rw [List.Nodup, List.pairwise_map]
  apply m.pairwise_shortlex_groups.imp
  intro g h hlt heq
  rw [heq, ← rank_lt_iff] at hlt
  exact lt_irrefl _ hlt

theorem outcomes_namedPredicates :
    m.namedPredicates.map NamedPredicate.outcomes =
      m.predicates.values.map Predicate.outcomes := by
  simp [namedPredicates, Table.values, Function.comp_def]

end Model

/-- Any predicates are grouped in runs with the same outcomes. Those of a model are put in order
first, each once, and are then as few runs as there are patterns: no other order gives fewer. -/
theorem groups_fewest :
    (∀ ps, PredicateGroup.Runs ps (PredicateGroup.ofList ps)) ∧
      ∀ m : Model Binary64, m.sorted.Perm m.namedPredicates ∧
        (m.sorted.Pairwise fun p q => p.key < q.key) ∧ PredicateGroup.Runs m.sorted m.groups ∧
        (m.groups.Pairwise fun g h => List.Shortlex (· < ·) g.outcomes h.outcomes) ∧
        (m.groups.map PredicateGroup.outcomes).Nodup ∧
        m.groups.length = (m.predicates.values.map Predicate.outcomes).toFinset.card ∧
        ∀ ps, ps.Perm m.namedPredicates → m.groups.length ≤ (PredicateGroup.ofList ps).length := by
  refine ⟨PredicateGroup.runs_ofList, fun m => ?_⟩
  have hpatterns : ∀ ps : List NamedPredicate, ps.Perm m.namedPredicates →
      (ps.map NamedPredicate.outcomes).toFinset =
        (m.predicates.values.map Predicate.outcomes).toFinset := by
    intro ps hps
    rw [← m.outcomes_namedPredicates]
    exact List.toFinset_eq_of_perm _ _ (hps.map _)
  have hlength : m.groups.length = (m.predicates.values.map Predicate.outcomes).toFinset.card := by
    rw [m.runs_groups.length_eq_card m.nodup_outcomes_groups, hpatterns _ m.sorted_perm]
  refine ⟨m.sorted_perm, m.pairwise_key_lt_sorted, m.runs_groups, m.pairwise_shortlex_groups,
    m.nodup_outcomes_groups, hlength, fun ps hps => ?_⟩
  rw [hlength, ← hpatterns ps hps]
  exact (PredicateGroup.runs_ofList ps).card_le_length

/-- Between the predicates of one pattern stand others, one of them without outcomes. -/
def partedModel : Model Binary64 where
  labels := ["no", "yes"]
  predicates := .ofList [("p", ⟨[(1, .one)]⟩), ("q", ⟨[]⟩), ("r", ⟨[(0, .one), (1, .one)]⟩),
    ("o", ⟨[(1, .zero)]⟩)]
  two_le := by decide
  labels_nodup := by decide
  inRange := by decide

theorem groups_fewest_partedModel :
    partedModel.groups.map PredicateGroup.token = [↑ "1", ↑ "2 1", ↑ "1 0 1"] ∧
      (PredicateGroup.ofList partedModel.namedPredicates).map PredicateGroup.token =
        [↑ "1 1", ↑ "1", ↑ "1 0 1", ↑ "1 1"] ∧
      PredicateGroup.Runs partedModel.namedPredicates
        (PredicateGroup.ofList partedModel.namedPredicates) ∧
      partedModel.namedPredicates.Perm partedModel.namedPredicates ∧
      partedModel.groups.length ≤
        (PredicateGroup.ofList partedModel.namedPredicates).length := by
  obtain ⟨hruns, hmodel⟩ := groups_fewest
  obtain ⟨-, -, -, -, -, -, hfewest⟩ := hmodel partedModel
  exact ⟨by cbv, by cbv, hruns _, .refl _, hfewest _ (.refl _)⟩

end MaxEnt
