import MaxEnt.Index.Indexer
import MaxEnt.Proofs.Index.FirstSeen
import MaxEnt.Proofs.Table

namespace MaxEnt.Indexing

structure Counted (names : List Text) (t : Table Text Nat) : Prop where
  keys : t.keys = names.eraseDups
  count : ∀ name, (t.get? name).getD 0 = names.count name

theorem counted_nil : Counted [] .empty := ⟨rfl, fun _ => rfl⟩

theorem Counted.insert {names : List Text} {t : Table Text Nat} (h : Counted names t)
    (name : Text) : Counted (names ++ [name]) (t.insert name ((t.get? name).getD 0 + 1)) where
  keys := by
    have hmem : name ∈ t.keys ↔ name ∈ names := by rw [h.keys, List.mem_eraseDups]
    have hkeys := Table.keys_insertEntry name ((t.get? name).getD 0 + 1) t.entries
    rw [eraseDups_append_singleton, ← h.keys]
    by_cases hn : name ∈ names
    · rw [if_pos hn]
      exact hkeys.trans (if_pos (hmem.2 hn))
    · rw [if_neg hn]
      exact hkeys.trans (if_neg fun hk => hn (hmem.1 hk))
  count other := by
    rw [Table.get?_insert, List.count_append, List.count_singleton, ← h.count other]
    by_cases ho : other = name
    · simp [ho]
    · have hb : (name == other) = false := beq_false_of_ne fun hn => ho hn.symm
      simp [ho, hb]

theorem Counted.foldl {names : List Text} {t : Table Text Nat} (h : Counted names t)
    (more : List Text) : Counted (names ++ more)
      (more.foldl (fun t name => t.insert name ((t.get? name).getD 0 + 1)) t) := by
  induction more generalizing names t with
  | nil => simpa using h
  | cons name more ih => simpa using ih (h.insert name)

theorem Counted.entries {names : List Text} {t : Table Text Nat} (h : Counted names t) :
    t.entries = names.eraseDups.map fun name => (name, names.count name) := by
  have hentry : ∀ e ∈ t.entries, e = (e.1, names.count e.1) := by
    intro e he
    have hget := (Table.get?_eq_some_iff t e.1 e.2).2 he
    rw [← h.count, hget]
    rfl
  calc t.entries = t.entries.map id := (List.map_id _).symm
    _ = t.entries.map fun e => (e.1, names.count e.1) := List.map_congr_left hentry
    _ = t.keys.map fun name => (name, names.count name) := by
      rw [Table.keys, List.map_map]
      rfl
    _ = names.eraseDups.map fun name => (name, names.count name) := by rw [h.keys]

theorem counted_tally (events : List Event) :
    Counted (events.flatMap Event.context) (tally events) :=
  counted_nil.foldl (events.flatMap Event.context)

def occurrences (events : List Event) (name : Text) : Nat :=
  (events.flatMap Event.context).count name

theorem keptPredicates_eq (cutoff : Int) (events : List Event) :
    keptPredicates cutoff events =
      ((keptPredicates cutoff events).map Prod.fst).map fun name =>
        (name, occurrences events name) := by
  rw [keptPredicates, (counted_tally events).entries, List.filter_map, List.map_map, List.map_map]
  rfl

theorem names_keptPredicates (cutoff : Int) (events : List Event) :
    (keptPredicates cutoff events).map Prod.fst =
      (events.flatMap Event.context).eraseDups.filter
        fun name => decide (cutoff ≤ occurrences events name) := by
  rw [keptPredicates, (counted_tally events).entries, List.filter_map, List.map_map]
  exact List.map_id _

theorem firstSeen_keptPredicates (cutoff : Int) (events : List Event) :
    FirstSeen (events.flatMap Event.context) (fun name => cutoff ≤ occurrences events name)
      ((keptPredicates cutoff events).map Prod.fst) := by
  rw [names_keptPredicates]
  apply ((firstSeen_eraseDups _).filter _).congr
  simp

end MaxEnt.Indexing
