import Mathlib.Data.List.Lex
import Mathlib.Data.Prod.Lex
import Mathlib.Order.Fin.Basic
import Mathlib.Order.Lex
import MaxEnt.Proofs.Model.Layout
import MaxEnt.Proofs.Table

namespace MaxEnt

namespace NamedPredicate

def key (p : NamedPredicate) : Nat ×ₗ List Int ×ₗ Text :=
  toLex (p.outcomes.length, toLex (p.outcomes, p.name))

theorem precedes_iff_key_lt (a b : NamedPredicate) : a.precedes b = true ↔ a.key < b.key := by
  rw [key, key, Prod.Lex.toLex_lt_toLex, Prod.Lex.toLex_lt_toLex]
  simp [precedes]

theorem not_precedes_iff_key_le (a b : NamedPredicate) : (!b.precedes a) = true ↔ a.key ≤ b.key := by
  rw [Bool.not_eq_true', ← Bool.not_eq_true, precedes_iff_key_lt, not_lt]

theorem name_eq_of_key_eq {a b : NamedPredicate} (h : a.key = b.key) : a.name = b.name := by
  rw [key, key, EmbeddingLike.apply_eq_iff_eq, Prod.mk.injEq, EmbeddingLike.apply_eq_iff_eq,
    Prod.mk.injEq] at h
  exact h.2.2

end NamedPredicate

namespace Model

theorem pairwise_sorted (m : Model Binary64) : m.sorted.Pairwise fun a b => a.key ≤ b.key := by
  have hordered : m.sorted.Pairwise fun a b => (!b.precedes a) = true := by
    apply List.pairwise_mergeSort
    · intro a b c hab hbc
      rw [NamedPredicate.not_precedes_iff_key_le] at *
      exact hab.trans hbc
    · intro a b
      rw [Bool.or_eq_true, NamedPredicate.not_precedes_iff_key_le,
        NamedPredicate.not_precedes_iff_key_le]
      exact le_total a.key b.key
  exact hordered.imp (NamedPredicate.not_precedes_iff_key_le _ _).1

theorem eq_of_name_eq {m : Model Binary64} {p q : NamedPredicate} (hp : p ∈ m.sorted)
    (hq : q ∈ m.sorted) (h : p.name = q.name) : p = q := by
  obtain ⟨d, hd, rfl⟩ := exists_entry_of_mem_sorted hp
  obtain ⟨e, he, rfl⟩ := exists_entry_of_mem_sorted hq
  rw [List.inj_on_of_nodup_map m.predicates.nodup hd he h]

variable {m n : Model Binary64}

/-- The order of the entries does not show in the layout: no two predicates of a model have the
same key, so there is one way to sort them. -/
theorem sorted_eq_of_perm (h : m.predicates.entries.Perm n.predicates.entries) :
    m.sorted = n.sorted := by
  have hperm : m.sorted.Perm n.sorted :=
    m.sorted_perm.trans ((h.map _).trans n.sorted_perm.symm)
  apply hperm.eq_of_pairwise _ m.pairwise_sorted n.pairwise_sorted
  intro a b ha hb hab hba
  have hname := NamedPredicate.name_eq_of_key_eq (le_antisymm hab hba)
  exact eq_of_name_eq ha (hperm.mem_iff.2 hb) hname

theorem fields_eq_of_perm (hlabels : m.labels = n.labels)
    (h : m.predicates.entries.Perm n.predicates.entries) : m.fields = n.fields := by
  rw [fields, fields, hlabels, sorted_eq_of_perm h]

end Model

end MaxEnt
