import Mathlib.Data.List.Perm.Basic
import MaxEnt.Codec.Field
import MaxEnt.Codec.Reader
import MaxEnt.Proofs.Numeral.Integer
import MaxEnt.Proofs.Text.ModifiedUtf8

namespace MaxEnt

theorem Predicate.zip_outcomes_params {κ : Type} (p : Predicate κ) :
    p.outcomes.zip p.params = p.weights := by
  simp [outcomes, params, List.zip_map']

theorem length_pattern_le {outcomes : List Int} {k : Nat} (hk : 0 < k)
    (h : ∀ o ∈ outcomes, 0 ≤ o ∧ o.natAbs < 10 ^ k) :
    (pattern outcomes).length ≤ outcomes.length * (k + 1) := by
  induction outcomes with
  | nil => exact Nat.zero_le _
  | cons o outcomes ih =>
    obtain ⟨⟨hpos, hlt⟩, hothers⟩ := List.forall_mem_cons.1 h
    have hnumeral : Numeral.ofInt o = Numeral.ofNat o.natAbs := if_neg (Int.not_lt.2 hpos)
    have hpattern : pattern (o :: outcomes) = ↑ ' ' :: (Numeral.ofInt o ++ pattern outcomes) := rfl
    have hdigits := Numeral.length_ofNat_le hk hlt
    have hrest := ih hothers
    rw [hpattern, hnumeral, List.length_cons, List.length_append, List.length_cons, Nat.succ_mul]
    omega

namespace GroupPattern

def token (p : GroupPattern) : Text := Numeral.ofNat p.count ++ pattern p.outcomes

theorem ofToken?_token {p : GroupPattern} (hcount : p.count < 10 ^ Numeral.maxDigits)
    (houtcomes : ∀ o ∈ p.outcomes, o.natAbs < 10 ^ Numeral.maxDigits) :
    ofToken? p.token = some p := by
  have hpieces : Text.splitOn ' ' p.token = (((p.count : Int) :: p.outcomes).map Numeral.ofInt) := by
    have hp : pattern p.outcomes = (p.outcomes.map Numeral.ofInt).flatMap (↑ ' ' :: ·) := by
      simp [pattern, List.flatMap_map]
    have hn : Numeral.ofInt p.count = Numeral.ofNat p.count := by
      simp [Numeral.ofInt]
    rw [token, hp, Text.splitOn_flatMap, List.map_cons, hn]
    · exact Numeral.not_mem_ofNat (by decide) _
    · intro u hu
      obtain ⟨o, -, rfl⟩ := List.mem_map.1 hu
      exact Numeral.blank_not_mem_ofInt o
  have hread : (((p.count : Int) :: p.outcomes).map Numeral.ofInt).mapM Numeral.integer? =
      some ((p.count : Int) :: p.outcomes) := by
    refine Numeral.mapM_map_eq_some fun n hn => Numeral.integer?_ofInt_of_lt ?_
    rcases List.mem_cons.1 hn with rfl | hn
    · simpa using hcount
    · exact houtcomes n hn
  rw [ofToken?, hpieces, hread]
  simp

end GroupPattern

namespace PredicateGroup

def shape (g : PredicateGroup) : GroupPattern := ⟨g.members.length, g.outcomes⟩

theorem ofList_cons (p : NamedPredicate) (ps : List NamedPredicate) :
    ofList (p :: ps) = cons p (ofList ps) := rfl

theorem spread_cons (p : NamedPredicate) (gs : List PredicateGroup) :
    GroupPattern.spread ((cons p gs).map shape) =
      p.outcomes :: GroupPattern.spread (gs.map shape) := by
  cases gs with
  | nil => rfl
  | cons g gs =>
    rw [cons]
    split
    · rename_i h
      simp [GroupPattern.spread, shape, List.replicate_succ, h]
    · simp [GroupPattern.spread, shape]

theorem spread_ofList (ps : List NamedPredicate) :
    GroupPattern.spread ((ofList ps).map shape) = ps.map (·.outcomes) := by
  induction ps with
  | nil => rfl
  | cons p ps ih => rw [ofList_cons, spread_cons, ih, List.map_cons]

theorem length_spread (ps : List GroupPattern) :
    (GroupPattern.spread ps).length = GroupPattern.covered ps := by
  induction ps with
  | nil => rfl
  | cons p ps ih =>
    have hspread : GroupPattern.spread (p :: ps) =
        List.replicate p.count p.outcomes ++ GroupPattern.spread ps := List.flatMap_cons
    have hcovered : GroupPattern.covered (p :: ps) = p.count + GroupPattern.covered ps := rfl
    rw [hspread, hcovered, List.length_append, List.length_replicate, ih]

theorem covered_ofList (ps : List NamedPredicate) :
    GroupPattern.covered ((ofList ps).map shape) = ps.length := by
  rw [← length_spread, spread_ofList, List.length_map]

theorem sum_length_spread (ps : List GroupPattern) :
    ((GroupPattern.spread ps).map List.length).sum =
      (ps.map fun p => p.count * p.outcomes.length).sum := by
  induction ps with
  | nil => rfl
  | cons p ps ih =>
    have hspread : GroupPattern.spread (p :: ps) =
        List.replicate p.count p.outcomes ++ GroupPattern.spread ps := List.flatMap_cons
    rw [hspread, List.map_append, List.sum_append_nat, ih, List.map_replicate, List.map_cons,
      List.sum_cons, List.sum_replicate_nat]

theorem flatMap_members_cons (p : NamedPredicate) (gs : List PredicateGroup) :
    (cons p gs).flatMap members = p :: gs.flatMap members := by
  cases gs with
  | nil => rfl
  | cons g gs =>
    rw [cons]
    split <;> simp

theorem flatMap_members_ofList (ps : List NamedPredicate) : (ofList ps).flatMap members = ps := by
  induction ps with
  | nil => rfl
  | cons p ps ih => rw [ofList_cons, flatMap_members_cons, ih]

/-- The groups cut the predicates, as they stand, into runs with the same outcomes, and cut no run. -/
structure Runs (ps : List NamedPredicate) (gs : List PredicateGroup) : Prop where
  members : gs.flatMap members = ps
  nonempty : ∀ g ∈ gs, g.members ≠ []
  outcomes : ∀ g ∈ gs, ∀ p ∈ g.members, p.outcomes = g.outcomes
  neighbours : gs.IsChain fun g h => g.outcomes ≠ h.outcomes

namespace Runs

variable {ps : List NamedPredicate} {gs : List PredicateGroup}

theorem cons (h : Runs ps gs) (p : NamedPredicate) : Runs (p :: ps) (cons p gs) where
  members := by rw [flatMap_members_cons, h.members]
  nonempty := by
    cases gs with
    | nil => simp [PredicateGroup.cons]
    | cons g gs =>
      obtain ⟨hg, hgs⟩ := List.forall_mem_cons.1 h.nonempty
      rw [PredicateGroup.cons]
      split
      · exact List.forall_mem_cons.2 ⟨by simp, hgs⟩
      · exact List.forall_mem_cons.2 ⟨by simp, h.nonempty⟩
  outcomes := by
    cases gs with
    | nil => simp [PredicateGroup.cons]
    | cons g gs =>
      obtain ⟨hg, hgs⟩ := List.forall_mem_cons.1 h.outcomes
      rw [PredicateGroup.cons]
      split
      · rename_i hp
        exact List.forall_mem_cons.2 ⟨List.forall_mem_cons.2 ⟨hp, hg⟩, hgs⟩
      · exact List.forall_mem_cons.2 ⟨by simp, h.outcomes⟩
  neighbours := by
    cases gs with
    | nil => exact List.isChain_singleton _
    | cons g gs =>
      rw [PredicateGroup.cons]
      split
      · -- The first run has grown, but its outcomes are those it had.
        cases gs with
        | nil => exact List.isChain_singleton _
        | cons k ks => exact List.isChain_cons_cons.2 (List.isChain_cons_cons.1 h.neighbours)
      · rename_i hp
        exact List.isChain_cons_cons.2 ⟨hp, h.neighbours⟩

theorem exists_member (h : Runs ps gs) {g : PredicateGroup} (hg : g ∈ gs) :
    ∃ p ∈ g.members, p ∈ ps ∧ p.outcomes = g.outcomes := by
  obtain ⟨p, hp⟩ := List.exists_mem_of_ne_nil _ (h.nonempty g hg)
  refine ⟨p, hp, ?_, h.outcomes g hg p hp⟩
  rw [← h.members]
  exact List.mem_flatMap.2 ⟨g, hg, hp⟩

end Runs

theorem runs_ofList (ps : List NamedPredicate) : Runs ps (ofList ps) := by
  induction ps with
  | nil => exact ⟨rfl, by simp [ofList], by simp [ofList], List.isChain_nil⟩
  | cons p ps ih => exact ih.cons p

theorem outcomes_mem_ofList {ps : List NamedPredicate} {g : PredicateGroup} (h : g ∈ ofList ps) :
    ∃ p ∈ ps, p.outcomes = g.outcomes := by
  obtain ⟨p, -, hp, houtcomes⟩ := (runs_ofList ps).exists_member h
  exact ⟨p, hp, houtcomes⟩

theorem length_members_le {ps : List NamedPredicate} {g : PredicateGroup} (h : g ∈ ofList ps) :
    g.members.length ≤ ps.length := by
  have hs : g.members.Sublist ((ofList ps).map members).flatten :=
    List.sublist_flatten_of_mem (List.mem_map.2 ⟨g, h, rfl⟩)
  rw [← List.flatMap_def, flatMap_members_ofList] at hs
  exact hs.length_le

theorem ofToken?_token {g : PredicateGroup} (hcount : g.members.length < 10 ^ Numeral.maxDigits)
    (houtcomes : ∀ o ∈ g.outcomes, o.natAbs < 10 ^ Numeral.maxDigits) :
    GroupPattern.ofToken? g.token = some g.shape :=
  GroupPattern.ofToken?_token (p := g.shape) hcount houtcomes

theorem ascii_token (g : PredicateGroup) : g.token.Ascii :=
  (Numeral.ascii_ofNat _).append
    (.flatMap fun o _ => (Numeral.ascii_ofInt o).cons (by decide))

theorem length_token_le {g : PredicateGroup} {j k : Nat} (hj : 0 < j) (hk : 0 < k)
    (hmembers : g.members.length < 10 ^ j) (houtcomes : ∀ o ∈ g.outcomes, 0 ≤ o ∧ o.natAbs < 10 ^ k) :
    g.token.length ≤ j + g.outcomes.length * (k + 1) := by
  rw [token, List.length_append]
  exact Nat.add_le_add (Numeral.length_ofNat_le hj hmembers) (length_pattern_le hk houtcomes)

theorem unpaired_token (g : PredicateGroup) : ModifiedUtf8.Unpaired g.token := by
  refine ModifiedUtf8.unpaired_of_forall fun c hc => ?_
  have hval := g.ascii_token c hc
  rw [Bool.eq_false_iff, ne_eq, ModifiedUtf8.isHighSurrogate_iff]
  omega

theorem length_cons_le (p : NamedPredicate) (gs : List PredicateGroup) :
    (cons p gs).length ≤ gs.length + 1 := by
  cases gs with
  | nil => simp [cons]
  | cons g gs =>
    rw [cons]
    split <;> simp

theorem length_ofList_le (ps : List NamedPredicate) : (ofList ps).length ≤ ps.length := by
  induction ps with
  | nil => simp [ofList]
  | cons p ps ih =>
    have h := length_cons_le p (ofList ps)
    rw [ofList_cons, List.length_cons]
    omega

end PredicateGroup

namespace Model

theorem sorted_perm (m : Model Binary64) : m.sorted.Perm m.namedPredicates := List.mergeSort_perm _ _

theorem length_sorted (m : Model Binary64) : m.sorted.length = m.predicates.size := by
  rw [m.sorted_perm.length_eq, namedPredicates, List.length_map, Table.size]

theorem length_groups_le (m : Model Binary64) : m.groups.length ≤ m.predicates.size :=
  m.length_sorted ▸ PredicateGroup.length_ofList_le m.sorted

theorem exists_entry_of_mem_sorted {m : Model Binary64} {p : NamedPredicate} (h : p ∈ m.sorted) :
    ∃ e ∈ m.predicates.entries, p = ⟨e.1, e.2.outcomes, e.2.params⟩ := by
  obtain ⟨e, he, rfl⟩ := List.mem_map.1 (m.sorted_perm.mem_iff.1 h)
  exact ⟨e, he, rfl⟩

theorem inRange_of_mem_sorted {m : Model Binary64} {p : NamedPredicate} (h : p ∈ m.sorted) :
    ∀ o ∈ p.outcomes, 0 ≤ o ∧ o < m.labels.length := by
  obtain ⟨e, he, rfl⟩ := exists_entry_of_mem_sorted h
  exact m.inRange e.2 (List.mem_map_of_mem he)

def sortedEntries (m : Model Binary64) : List (Text × Predicate Binary64) :=
  m.sorted.map fun p => (p.name, ⟨p.outcomes.zip p.params⟩)

theorem sortedEntries_perm (m : Model Binary64) : m.sortedEntries.Perm m.predicates.entries := by
  have h := m.sorted_perm.map fun p : NamedPredicate =>
    (p.name, (⟨p.outcomes.zip p.params⟩ : Predicate Binary64))
  simpa [sortedEntries, namedPredicates, Function.comp_def, Predicate.zip_outcomes_params] using h

theorem map_sortedEntries {β : Type} (m : Model Binary64) (f : Text → List Int → List Binary64 → β) :
    (m.sortedEntries.map fun e => f e.1 e.2.outcomes e.2.params) =
      m.sorted.map fun p => f p.name p.outcomes p.params := by
  rw [sortedEntries, List.map_map]
  refine List.map_congr_left fun p hp => ?_
  obtain ⟨e, -, rfl⟩ := exists_entry_of_mem_sorted hp
  simp [Predicate.zip_outcomes_params]

end Model

end MaxEnt
