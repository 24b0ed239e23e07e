import Mathlib.Data.List.Nodup
import Mathlib.Data.List.Perm.Basic
import MaxEnt.Table

namespace MaxEnt.Table

variable {κ α : Type} [DecidableEq κ]

theorem lookup_eq_some_iff {es : List (κ × α)} (h : (es.map Prod.fst).Nodup) (key : κ) (value : α) :
    es.lookup key = some value ↔ (key, value) ∈ es := by
  induction es with
  | nil => simp
  | cons e es ih =>
    obtain ⟨k, v⟩ := e
    obtain ⟨hk, hes⟩ := List.nodup_cons.1 h
    by_cases he : key = k
    · subst he
      have hnot : (key, value) ∉ es := fun hm => hk (List.mem_map.2 ⟨_, hm, rfl⟩)
      simp [hnot, eq_comm]
    · have hb : (key == k) = false := beq_false_of_ne he
      simp [List.lookup_cons, hb, he, ih hes]

theorem get?_eq_some_iff (t : Table κ α) (key : κ) (value : α) :
    t.get? key = some value ↔ (key, value) ∈ t.entries := lookup_eq_some_iff t.nodup key value

theorem isSome_get?_iff (t : Table κ α) (key : κ) : (t.get? key).isSome = true ↔ key ∈ t.keys := by
  rw [Option.isSome_iff_exists]
  simp only [get?_eq_some_iff, keys, List.mem_map, Prod.exists, exists_and_right, exists_eq_right]

theorem get?_eq_of_perm {t u : Table κ α} (h : t.entries.Perm u.entries) (key : κ) :
    t.get? key = u.get? key := by
  apply Option.ext
  intro value
  rw [get?_eq_some_iff, get?_eq_some_iff, h.mem_iff]

theorem perm_of_get?_eq {t u : Table κ α} (h : ∀ key, t.get? key = u.get? key) :
    t.entries.Perm u.entries := by
  rw [List.perm_ext_iff_of_nodup t.nodup.of_map u.nodup.of_map]
  rintro ⟨key, value⟩
  rw [← get?_eq_some_iff, ← get?_eq_some_iff, h key]

theorem get?_map {β : Type} (g : α → β) (t : Table κ α) (key : κ) :
    (t.map g).get? key = (t.get? key).map g := by
  have hentries : ∀ es : List (κ × α),
      (es.map fun e => (e.1, g e.2)).lookup key = (es.lookup key).map g := by
    intro es
    induction es with
    | nil => rfl
    | cons e es ih =>
      obtain ⟨k, v⟩ := e
      rw [List.map_cons, List.lookup_cons, List.lookup_cons, ih]
      cases key == k <;> rfl
  exact hentries t.entries

theorem insertEntry_of_not_mem {key : κ} {es : List (κ × α)} (h : key ∉ es.map Prod.fst) (value : α) :
    insertEntry key value es = es ++ [(key, value)] := by
  induction es with
  | nil => rfl
  | cons e es ih =>
    have he : ¬ e.1 = key := fun he => h (by simp [he])
    have ht : key ∉ es.map Prod.fst := fun hm => h (List.mem_cons_of_mem _ hm)
    simp [insertEntry, he, ih ht]

theorem entries_insert_of_not_mem {t : Table κ α} {key : κ} (h : key ∉ t.keys) (value : α) :
    (t.insert key value).entries = t.entries ++ [(key, value)] := insertEntry_of_not_mem h value

theorem entries_insertAll {t : Table κ α} {es : List (κ × α)}
    (h : (t.keys ++ es.map Prod.fst).Nodup) : (t.insertAll es).entries = t.entries ++ es := by
  induction es generalizing t with
  | nil => simp [insertAll]
  | cons e es ih =>
    have he : e.1 ∉ t.keys := by
      intro hm
      exact List.disjoint_of_nodup_append h hm (by simp)
    have hentries := entries_insert_of_not_mem he e.2
    have hkeys : (t.insert e.1 e.2).keys = t.keys ++ [e.1] := by
      simp [keys, hentries]
    have hes : ((t.insert e.1 e.2).keys ++ es.map Prod.fst).Nodup := by
      rw [hkeys]
      simpa using h
    have ht : t.insertAll (e :: es) = (t.insert e.1 e.2).insertAll es := rfl
    rw [ht, ih hes, hentries]
    simp

theorem entries_ofList {es : List (κ × α)} (h : (es.map Prod.fst).Nodup) :
    (ofList es).entries = es := by
  have hes : ((empty : Table κ α).keys ++ es.map Prod.fst).Nodup := by simpa [keys, empty] using h
  exact entries_insertAll hes

theorem lookup_insertEntry (key k : κ) (value : α) (es : List (κ × α)) :
    (insertEntry key value es).lookup k = if k = key then some value else es.lookup k := by
  induction es with
  | nil => by_cases hk : k = key <;> simp [insertEntry, hk]
  | cons e es ih =>
    obtain ⟨j, v⟩ := e
    by_cases hj : j = key
    · subst hj
      by_cases hk : k = j
      · simp [insertEntry, hk]
      · simp [insertEntry, List.lookup_cons, hk, beq_false_of_ne hk]
    · by_cases hk : k = j
      · subst hk
        simp [insertEntry, hj]
      · simp [insertEntry, List.lookup_cons, hj, beq_false_of_ne hk, ih]

theorem get?_insert (t : Table κ α) (key k : κ) (value : α) :
    (t.insert key value).get? k = if k = key then some value else t.get? k :=
  lookup_insertEntry key k value t.entries

theorem lookup_filter (keep : κ → Bool) (key : κ) (es : List (κ × α)) :
    (es.filter fun e => keep e.1).lookup key = if keep key then es.lookup key else none := by
  induction es with
  | nil => simp
  | cons e es ih =>
    obtain ⟨k, v⟩ := e
    by_cases hk : key = k
    · subst hk
      cases hkeep : keep key <;> simp [hkeep, ih]
    · have hb : (key == k) = false := beq_false_of_ne hk
      cases hkeep : keep k <;> simp [List.lookup_cons, hkeep, hb, ih]

theorem get?_erase (t : Table κ α) (key k : κ) :
    (t.erase key).get? k = if k = key then none else t.get? k := by
  have hlookup := lookup_filter (fun j => decide (j ≠ key)) k t.entries
  by_cases hk : k = key
  · rw [if_pos hk, erase, filter, get?, hlookup, if_neg (by simp [hk])]
  · rw [if_neg hk, erase, filter, get?, hlookup, if_pos (by simp [hk])]
    rfl

omit [DecidableEq κ] in
theorem eq_of_entries_eq {t u : Table κ α} (h : t.entries = u.entries) : t = u := by
  obtain ⟨entries, nodup⟩ := t
  obtain ⟨entries', nodup'⟩ := u
  cases h
  rfl

/-- A new key that is erased again leaves nothing behind, not even its place. -/
theorem erase_insert {t : Table κ α} {key : κ} (h : t.get? key = none) (value : α) :
    (t.insert key value).erase key = t := by
  have hkey : key ∉ t.keys := by rwa [← isSome_get?_iff, Option.not_isSome_iff_eq_none]
  have hkept : ∀ e ∈ t.entries, decide (e.1 ≠ key) = true := fun e he =>
    decide_eq_true fun heq => hkey (heq ▸ List.mem_map_of_mem he)
  apply eq_of_entries_eq
  change (t.insert key value).entries.filter (fun e => e.1 ≠ key) = t.entries
  rw [entries_insert_of_not_mem hkey, List.filter_append, List.filter_eq_self.2 hkept]
  simp

theorem get?_insertAll (t : Table κ α) (es : List (κ × α)) (key : κ) :
    (t.insertAll es).get? key = (es.reverse.lookup key).or (t.get? key) := by
  induction es generalizing t with
  | nil => simp [insertAll]
  | cons e es ih =>
    obtain ⟨k, v⟩ := e
    have ht : t.insertAll ((k, v) :: es) = (t.insert k v).insertAll es := rfl
    rw [ht, ih, get?_insert, List.reverse_cons, List.lookup_append, Option.or_assoc]
    congr 1
    by_cases hk : key = k
    · simp [hk]
    · have hb : (key == k) = false := beq_false_of_ne hk
      simp [List.lookup_cons, hk, hb]

theorem get?_ofList (es : List (κ × α)) (key : κ) : (ofList es).get? key = es.reverse.lookup key := by
  rw [ofList, get?_insertAll]
  simp [empty, get?]

theorem get?_ofList_eq_some_iff {es : List (κ × α)} {key : κ} {value : α} :
    (ofList es).get? key = some value ↔
      ∃ before after, es = before ++ (key, value) :: after ∧ key ∉ after.map Prod.fst := by
  rw [get?_ofList, List.lookup_eq_some_iff]
  constructor
  · rintro ⟨after, before, hes, hafter⟩
    refine ⟨before.reverse, after.reverse, ?_, fun hm => ?_⟩
    · rw [← List.reverse_reverse es, hes]
      simp
    · obtain ⟨e, he, rfl⟩ := List.mem_map.1 hm
      exact bne_iff_ne.1 (hafter e (List.mem_reverse.1 he)) rfl
  · rintro ⟨before, after, rfl, hafter⟩
    refine ⟨after.reverse, before.reverse, by simp, fun e he => bne_iff_ne.2 fun heq => hafter ?_⟩
    rw [heq]
    exact List.mem_map_of_mem (List.mem_reverse.1 he)

theorem get?_ofList_of_getElem? {es : List (κ × α)} {i : Nat} {key : κ} {value : α}
    (h : es[i]? = some (key, value)) (hlast : key ∉ (es.map Prod.fst).drop (i + 1)) :
    (ofList es).get? key = some value := by
  refine get?_ofList_eq_some_iff.2 ⟨es.take i, es.drop (i + 1), ?_, by rwa [List.map_drop]⟩
  obtain ⟨hi, he⟩ := List.getElem?_eq_some_iff.1 h
  rw [← he, ← List.drop_eq_getElem_cons hi, List.take_append_drop]

theorem isSome_get?_ofList (es : List (κ × α)) (key : κ) :
    ((ofList es).get? key).isSome ↔ key ∈ es.map Prod.fst := by
  rw [get?_ofList, List.lookup_isSome_iff]
  simp

theorem ofList_entries (t : Table κ α) : ofList t.entries = t :=
  eq_of_entries_eq (entries_ofList t.nodup)

theorem mem_of_mem_ofList {es : List (κ × α)} {e : κ × α} (h : e ∈ (ofList es).entries) : e ∈ es := by
  obtain ⟨key, value⟩ := e
  rw [← get?_eq_some_iff, get?_ofList_eq_some_iff] at h
  obtain ⟨before, after, rfl, -⟩ := h
  exact List.mem_append_right _ List.mem_cons_self

theorem get?_union (t u : Table κ α) (key : κ) :
    (t.union u).get? key = (u.get? key).or (t.get? key) := by
  rw [union, get?_insertAll, ← get?_ofList, ofList_entries]

theorem mem_of_mem_union {t u : Table κ α} {e : κ × α} (h : e ∈ (t.union u).entries) :
    e ∈ t.entries ∨ e ∈ u.entries := by
  obtain ⟨key, value⟩ := e
  rw [← get?_eq_some_iff, get?_union, Option.or_eq_some_iff] at h
  rcases h with h | ⟨-, h⟩
  · exact .inr ((get?_eq_some_iff u key value).1 h)
  · exact .inl ((get?_eq_some_iff t key value).1 h)

end MaxEnt.Table
