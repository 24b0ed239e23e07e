import MaxEnt.Proofs.Index.Order
import MaxEnt.Proofs.Model.Order

namespace MaxEnt

def ExactlyOne (p q r : Prop) : Prop := (p ∧ ¬q ∧ ¬r) ∨ (¬p ∧ q ∧ ¬r) ∨ (¬p ∧ ¬q ∧ r)

instance (p q r : Prop) [Decidable p] [Decidable q] [Decidable r] : Decidable (ExactlyOne p q r) :=
  inferInstanceAs (Decidable ((p ∧ ¬q ∧ ¬r) ∨ (¬p ∧ q ∧ ¬r) ∨ (¬p ∧ ¬q ∧ r)))

namespace NamedPredicate

def HasNumbers (p : NamedPredicate) : Prop := ∀ x ∈ p.params, x.isNaN = false

instance (p : NamedPredicate) : Decidable p.HasNumbers :=
  inferInstanceAs (Decidable (∀ x ∈ p.params, x.isNaN = false))

/-- The parameters, in which both zeros are the same. -/
def ranks (p : NamedPredicate) : List Int := p.params.map Binary64.rank

def DifferInParams (a b : NamedPredicate) : Prop :=
  a.name = b.name ∧ a.outcomes = b.outcomes ∧ a.ranks ≠ b.ranks

variable {a b c : NamedPredicate}

theorem key_eq_iff : a.key = b.key ↔ a.name = b.name ∧ a.outcomes = b.outcomes := by
  constructor
  · intro h
    refine ⟨name_eq_of_key_eq h, ?_⟩
    rw [key, key, EmbeddingLike.apply_eq_iff_eq, Prod.mk.injEq, EmbeddingLike.apply_eq_iff_eq,
      Prod.mk.injEq] at h
    exact h.2.1
  · rintro ⟨hname, houtcomes⟩
    rw [key, key, hname, houtcomes]

theorem paramsEqual_iff {xs ys : List Binary64} (hx : ∀ x ∈ xs, x.isNaN = false)
    (hy : ∀ y ∈ ys, y.isNaN = false) :
    (xs.length == ys.length && (xs.zip ys).all fun (x, y) => x.equals y) = true ↔
      xs.map Binary64.rank = ys.map Binary64.rank := by
  induction xs generalizing ys with
  | nil => cases ys <;> simp
  | cons x xs ih =>
    cases ys with
    | nil => simp
    | cons y ys =>
      obtain ⟨hx, hxs⟩ := List.forall_mem_cons.1 hx
      obtain ⟨hy, hys⟩ := List.forall_mem_cons.1 hy
      have hrest := ih hxs hys
      rw [Bool.and_eq_true, beq_iff_eq] at hrest
      simp only [List.length_cons, List.zip_cons_cons, List.all_cons, Bool.and_eq_true, beq_iff_eq,
        Nat.add_right_cancel_iff, List.map_cons, List.cons.injEq, ← hrest, Binary64.equals_iff hx hy]
      exact and_left_comm

theorem equals_iff_key_ranks (ha : a.HasNumbers) (hb : b.HasNumbers) :
    a.equals b = true ↔ a.key = b.key ∧ a.ranks = b.ranks := by
  rw [equals, Bool.and_assoc, Bool.and_eq_true, Bool.and_eq_true, beq_iff_eq, beq_iff_eq,
    paramsEqual_iff ha hb, key_eq_iff]
  rfl

theorem differInParams_iff : a.DifferInParams b ↔ a.key = b.key ∧ a.ranks ≠ b.ranks := by
  rw [DifferInParams, key_eq_iff, and_assoc]

theorem precedesOrEquals_iff :
    a.precedesOrEquals b = true ↔ a.precedes b = true ∨ a.equals b = true := by
  rw [precedesOrEquals, Bool.or_eq_true]

theorem follows_iff : a.follows b = true ↔ ¬a.precedes b = true ∧ ¬a.equals b = true := by
  rw [follows, Bool.and_eq_true, Bool.not_eq_true', Bool.not_eq_true', Bool.not_eq_true,
    Bool.not_eq_true]

theorem followsOrEquals_iff : a.followsOrEquals b = true ↔ ¬a.precedes b = true := by
  rw [followsOrEquals, Bool.not_eq_true', Bool.not_eq_true]

theorem exactlyOne_of_not_differInParams (ha : a.HasNumbers) (hb : b.HasNumbers)
    (h : ¬a.DifferInParams b) :
    ExactlyOne (a.precedes b = true) (a.equals b = true) (b.precedes a = true) := by
  rw [differInParams_iff, not_and, not_not] at h
  rw [ExactlyOne, precedes_iff_key_lt, precedes_iff_key_lt, equals_iff_key_ranks ha hb]
  obtain hlt | heq | hgt := lt_trichotomy a.key b.key
  · exact .inl ⟨hlt, fun hequal => hlt.ne hequal.1, hlt.asymm⟩
  · exact .inr (.inl ⟨heq.not_lt, ⟨heq, h heq⟩, heq.not_gt⟩)
  · exact .inr (.inr ⟨hgt.asymm, fun hequal => hgt.ne' hequal.1, hgt⟩)

/-- Predicates that differ in their parameters alone are not equal, and each follows the other,
though neither precedes. -/
theorem of_differInParams (ha : a.HasNumbers) (hb : b.HasNumbers) (h : a.DifferInParams b) :
    a.precedes b = false ∧ b.precedes a = false ∧ a.equals b = false ∧ a.follows b = true ∧
      b.follows a = true := by
  obtain ⟨hkey, hranks⟩ := differInParams_iff.1 h
  have hab : ¬a.precedes b = true := by rw [precedes_iff_key_lt]; exact hkey.not_lt
  have hba : ¬b.precedes a = true := by rw [precedes_iff_key_lt]; exact hkey.not_gt
  have heq : ¬a.equals b = true := fun heq => hranks ((equals_iff_key_ranks ha hb).1 heq).2
  have heq' : ¬b.equals a = true := fun heq => hranks ((equals_iff_key_ranks hb ha).1 heq).2.symm
  rw [follows_iff, follows_iff, ← Bool.not_eq_true, ← Bool.not_eq_true, ← Bool.not_eq_true]
  exact ⟨hab, hba, heq, ⟨hab, heq⟩, hba, heq'⟩

theorem precedesOrEquals_iff_key (ha : a.HasNumbers) (hb : b.HasNumbers) :
    a.precedesOrEquals b = true ↔ a.key < b.key ∨ a.key = b.key ∧ a.ranks = b.ranks := by
  rw [precedesOrEquals_iff, precedes_iff_key_lt, equals_iff_key_ranks ha hb]

theorem precedesOrEquals_trans (ha : a.HasNumbers) (hb : b.HasNumbers) (hc : c.HasNumbers)
    (hab : a.precedesOrEquals b = true) (hbc : b.precedesOrEquals c = true) :
    a.precedesOrEquals c = true := by
  rw [precedesOrEquals_iff_key ha hb] at hab
  rw [precedesOrEquals_iff_key hb hc] at hbc
  rw [precedesOrEquals_iff_key ha hc]
  obtain hlt | ⟨hkey, hranks⟩ := hab
  · obtain hlt' | ⟨hkey', -⟩ := hbc
    · exact .inl (hlt.trans hlt')
    · exact .inl (hkey' ▸ hlt)
  · rw [hkey, hranks]
    exact hbc

theorem equals_of_precedesOrEquals (ha : a.HasNumbers) (hb : b.HasNumbers)
    (hab : a.precedesOrEquals b = true) (hba : b.precedesOrEquals a = true) :
    a.equals b = true := by
  rw [precedesOrEquals_iff_key ha hb] at hab
  rw [precedesOrEquals_iff_key hb ha] at hba
  rw [equals_iff_key_ranks ha hb]
  obtain hlt | hequal := hab
  · obtain hlt' | ⟨hkey, -⟩ := hba
    · exact absurd hlt' hlt.asymm
    · exact absurd hkey hlt.ne'
  · exact hequal

/-- Precedence and equality order predicates totally, but for those that differ in their parameters
alone: of these neither precedes, they are not equal, and each is said to follow the other. -/
theorem precedes_total (a b c : NamedPredicate) (ha : a.HasNumbers) (hb : b.HasNumbers)
    (hc : c.HasNumbers) :
    (¬a.DifferInParams b →
      ExactlyOne (a.precedes b = true) (a.equals b = true) (b.precedes a = true) ∧
      (a.follows b = true ↔ b.precedes a = true) ∧
      (a.followsOrEquals b = true ↔ b.precedesOrEquals a = true)) ∧
    (a.DifferInParams b →
      a.precedes b = false ∧ b.precedes a = false ∧ a.equals b = false ∧ a.follows b = true ∧
        b.follows a = true) ∧
    (a.precedesOrEquals b = true ↔ a.precedes b = true ∨ a.equals b = true) ∧
    (a.precedesOrEquals b = true → b.precedesOrEquals c = true → a.precedesOrEquals c = true) ∧
    (a.precedesOrEquals b = true → b.precedesOrEquals a = true → a.equals b = true) := by
  refine ⟨fun hdiffer => ?_, of_differInParams ha hb, precedesOrEquals_iff,
    precedesOrEquals_trans ha hb hc, equals_of_precedesOrEquals ha hb⟩
  have hone := exactlyOne_of_not_differInParams ha hb hdiffer
  have hsymm : b.equals a = true ↔ a.equals b = true := by
    rw [equals_iff_key_ranks ha hb, equals_iff_key_ranks hb ha, eq_comm, @eq_comm _ b.ranks]
  refine ⟨hone, ?_, ?_⟩
  · rw [follows_iff]
    unfold ExactlyOne at hone
    tauto
  · rw [followsOrEquals_iff, precedesOrEquals_iff, hsymm]
    unfold ExactlyOne at hone
    tauto

/-- Two predicates whose parameters are zeros of both signs, and one with fewer outcomes. -/
theorem precedes_total_signedZeros :
    HasNumbers ⟨↑ "v", [1], [.one]⟩ ∧ HasNumbers ⟨↑ "w", [0, 1], [.zero, .one]⟩ ∧
      HasNumbers ⟨↑ "w", [0, 1], [.ofMagnitude true 0, .one]⟩ ∧
      ¬DifferInParams ⟨↑ "w", [0, 1], [.zero, .one]⟩ ⟨↑ "w", [0, 1], [.ofMagnitude true 0, .one]⟩ ∧
      ExactlyOne
        (precedes ⟨↑ "w", [0, 1], [.zero, .one]⟩ ⟨↑ "w", [0, 1], [.ofMagnitude true 0, .one]⟩ = true)
        (equals ⟨↑ "w", [0, 1], [.zero, .one]⟩ ⟨↑ "w", [0, 1], [.ofMagnitude true 0, .one]⟩ = true)
        (precedes ⟨↑ "w", [0, 1], [.ofMagnitude true 0, .one]⟩ ⟨↑ "w", [0, 1], [.zero, .one]⟩ = true) := by
  have hv : HasNumbers ⟨↑ "v", [1], [.one]⟩ := by decide
  have hw : HasNumbers ⟨↑ "w", [0, 1], [.zero, .one]⟩ := by decide
  have hw' : HasNumbers ⟨↑ "w", [0, 1], [.ofMagnitude true 0, .one]⟩ := by decide
  have hdiffer : ¬DifferInParams ⟨↑ "w", [0, 1], [.zero, .one]⟩
      ⟨↑ "w", [0, 1], [.ofMagnitude true 0, .one]⟩ := fun h => h.2.2 (by decide)
  exact ⟨hv, hw, hw', hdiffer, ((precedes_total _ _ _ hw hw' hv).1 hdiffer).1⟩

/-- One name, one outcome, two weights: not equal, and neither precedes the other. -/
theorem not_exactlyOne_twoWeights :
    HasNumbers ⟨↑ "w", [0], [.one]⟩ ∧ HasNumbers ⟨↑ "w", [0], [.zero]⟩ ∧
      ¬ExactlyOne (precedes ⟨↑ "w", [0], [.one]⟩ ⟨↑ "w", [0], [.zero]⟩ = true)
        (equals ⟨↑ "w", [0], [.one]⟩ ⟨↑ "w", [0], [.zero]⟩ = true)
        (precedes ⟨↑ "w", [0], [.zero]⟩ ⟨↑ "w", [0], [.one]⟩ = true) := by
  decide

end NamedPredicate

/-- The predicates of one model have distinct names, so that their order is total. -/
theorem Model.not_differInParams {m : Model Binary64} {a b : NamedPredicate} (ha : a ∈ m.sorted)
    (hb : b ∈ m.sorted) : ¬a.DifferInParams b := by
  rintro ⟨hname, -, hranks⟩
  rw [eq_of_name_eq ha hb hname] at hranks
  exact hranks rfl

end MaxEnt
