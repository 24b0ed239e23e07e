import MaxEnt.Model.Basic

namespace MaxEnt

variable {κ : Type}

theorem Predicate.firstOutOfRange?_eq_none {count : Nat} {p : Predicate κ} (h : p.InRange count) :
    p.firstOutOfRange? count = none := by
  rw [firstOutOfRange?, List.find?_eq_none]
  intro o ho
  simpa using h o ho

namespace Model

theorem unknownOutcome?_eq_none {count : Nat} {es : List (Text × Predicate κ)}
    (h : ∀ p ∈ es.map Prod.snd, p.InRange count) : unknownOutcome? count es = none := by
  induction es with
  | nil => rfl
  | cons e es ih =>
    have he : e.2.firstOutOfRange? count = none :=
      Predicate.firstOutOfRange?_eq_none (h e.2 (by simp))
    rw [unknownOutcome?, he]
    exact ih fun p hp => h p (List.mem_cons_of_mem _ hp)

theorem ofTable_eq_ok {labels : List Text} {predicates : Table Text (Predicate κ)}
    (hlength : 2 ≤ labels.length) (hnodup : labels.Nodup)
    (hrange : ∀ p ∈ predicates.values, p.InRange labels.length) :
    ofTable labels predicates = .ok ⟨labels, predicates, hlength, hnodup, hrange⟩ := by
  have hnone := unknownOutcome?_eq_none hrange
  have hlabels : ¬ labels.length < 2 := by omega
  unfold ofTable
  rw [dif_neg hlabels, dif_pos hnodup]
  split
  · rename_i e he
    rw [hnone] at he
    cases he
  · rfl

theorem ofTable_ok {labels : List Text} {predicates : Table Text (Predicate κ)} {m : Model κ}
    (h : ofTable labels predicates = .ok m) : m.labels = labels ∧ m.predicates = predicates := by
  unfold ofTable at h
  split at h
  · cases h
  · split at h
    · split at h
      · cases h
      · cases h
        exact ⟨rfl, rfl⟩
    · cases h

end Model

end MaxEnt
