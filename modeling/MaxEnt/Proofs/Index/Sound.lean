import MaxEnt.Proofs.Binary64.Rounding
import MaxEnt.Proofs.Except
import MaxEnt.Proofs.Index.Sorted
import MaxEnt.Proofs.Index.Spool

namespace MaxEnt

namespace EventIndex

theorem checkAll_eq_ok_iff {p : Int → Bool} {fault : Int → IndexFault} {xs : List Int} :
    checkAll p fault xs = .ok () ↔ ∀ x ∈ xs, p x = true := by
  rw [checkAll]
  cases hfind : xs.find? (!p ·) with
  | none => simpa using hfind
  | some x =>
    have hx := List.find?_some hfind
    have hmem := List.mem_of_find?_eq_some hfind
    simp only [reduceCtorEq, false_iff]
    intro h
    rw [h x hmem] at hx
    cases hx

theorem bind_eq_ok_iff {x : Except IndexFault Unit} {f : Unit → Except IndexFault Unit} :
    x >>= f = .ok () ↔ x = .ok () ∧ f () = .ok () :=
  Except.bind_eq_ok_iff.trans Unique.exists_iff

theorem refuse_eq_ok_iff {c : Prop} [Decidable c] {e : IndexFault}
    {f : PUnit → Except IndexFault Unit} {rest : Except IndexFault Unit} :
    (if c then throw e >>= f else rest) = .ok () ↔ ¬ c ∧ rest = .ok () := by
  by_cases h : c
  · rw [if_pos h]
    exact ⟨(nomatch ·), fun hc => absurd h hc.1⟩
  · rw [if_neg h, and_iff_right h]

/-- Columns that fit together, of numbers that are in range. -/
structure Sound (x : EventIndex) : Prop where
  contexts : x.contexts.length = x.outcomes.length ∨ x.contexts.length = 1
  rows : x.rows.length = x.outcomes.length
  counts : (stretch x.outcomes.length x.counts).length = x.outcomes.length
  values : ∀ vs, x.values = some vs → x.contexts.flatten.length ≤ vs.flatten.length
  places : ∀ place ∈ x.contexts.flatten, isShort place = true ∧ 0 ≤ place ∧ place < x.predicates.length
  weights : ∀ n ∈ x.counts, (Binary64.ofInt n).isFinite = true
  outcomes : ∀ o ∈ x.outcomes, isShort o = true ∧ -x.labels.length ≤ o ∧ o < x.labels.length

theorem check_eq_ok_iff {x : EventIndex} : x.check = .ok () ↔ x.Sound := by
  have hvalues : ¬ (x.values.map (·.flatten.length)).any (· < x.contexts.flatten.length) = true ↔
      ∀ vs, x.values = some vs → x.contexts.flatten.length ≤ vs.flatten.length := by
    cases x.values with
    | none => simp
    | some vs => simp
  rw [check]
  dsimp only
  simp only [refuse_eq_ok_iff, bind_eq_ok_iff, checkAll_eq_ok_iff, hvalues, Bool.and_eq_true,
    decide_eq_true_eq, not_not]
  constructor
  · rintro ⟨hcontexts, hshort, hvalues, hrows, hplaces, hweights, hshort', hcounts, houtcomes⟩
    exact ⟨by omega, hrows, hcounts, hvalues, fun p hp => ⟨hshort p hp, hplaces p hp⟩, hweights,
      fun o ho => ⟨hshort' o ho, houtcomes o ho⟩⟩
  · intro h
    have hcontexts := h.contexts
    exact ⟨by omega, fun p hp => (h.places p hp).1, h.values, h.rows, fun p hp => (h.places p hp).2,
      h.weights, fun o ho => (h.outcomes o ho).1, h.counts, fun o ho => (h.outcomes o ho).2⟩

theorem mem_of_mem_cut {α : Type} {ns : List Nat} {xs piece : List α} (h : piece ∈ cut ns xs) {a : α}
    (ha : a ∈ piece) : a ∈ xs := by
  induction ns generalizing xs with
  | nil => cases h
  | cons n ns ih =>
    rw [cut, List.mem_cons] at h
    obtain rfl | h := h
    · exact List.mem_of_mem_take ha
    · exact List.mem_of_mem_drop (ih h)

theorem Sound.place_lt {x : EventIndex} (h : x.Sound) (κ : Type) [Scalar κ] :
    ∀ e ∈ x.allExamples κ, ∀ f ∈ e.features, f.1 < x.predicates.length := by
  intro e he
  obtain ⟨k, hk⟩ := List.mem_iff_getElem?.1 he
  obtain ⟨features, o, hfeatures, -, rfl⟩ := List.getElem?_zipWith_eq_some.1 hk
  obtain ⟨piece, hpiece, rfl⟩ := List.mem_map.1 (List.mem_of_getElem? hfeatures)
  apply Example.forall_mem_combine (P := (· < _))
  intro f hf
  obtain ⟨place, hplace, hnat⟩ := List.mem_map.1 (List.of_mem_zip (mem_of_mem_cut hpiece hf)).1
  have hrange := (h.places place hplace).2
  omega

variable {rows : List (Row × Nat)} {keepsValues : Bool} {predicates : List (Text × Nat)}
  {labels : List Text}

theorem sound_ofRows (hregular : ∀ r ∈ rows, r.1.Regular keepsValues)
    (hplaces : ∀ r ∈ rows, ∀ place ∈ r.1.context, place < predicates.length)
    (houtcomes : ∀ r ∈ rows, r.1.outcome < labels.length) (hcounts : ∀ r ∈ rows, r.2 < 2 ^ 63)
    (hpredicates : predicates.length < 2 ^ 63) (hlabels : labels.length < 2 ^ 63) :
    (ofRows rows keepsValues predicates labels).Sound where
  contexts := .inl (by simp [ofRows])
  rows := by
    rw [rows_ofRows]
    simp [ofRows]
  counts := by
    rw [stretch_of_length] <;> simp [ofRows]
  values := by
    intro vs hvs
    cases keepsValues with
    | false => cases hvs
    | true =>
      obtain rfl := Option.some.inj hvs
      have hlength : ∀ r ∈ rows, (r.1.context.map Int.ofNat).length = (r.1.values.getD []).length := by
        intro r hr
        obtain ⟨values, hv⟩ := Option.isSome_iff_exists.1 (hregular r hr).isSome_values
        rw [List.length_map, hv, Option.getD_some, (hregular r hr).length_values values hv]
      have hsums : (ofRows rows true predicates labels).contexts.flatten.length =
          (rows.map fun r => r.1.values.getD []).flatten.length := by
        rw [List.length_flatten, List.length_flatten, ofRows, List.map_map, List.map_map]
        exact congrArg List.sum (List.map_congr_left hlength)
      exact hsums.le
  places := by
    intro place hplace
    obtain ⟨context, hcontext, hmem⟩ := List.mem_flatten.1 hplace
    obtain ⟨r, hr, rfl⟩ := List.mem_map.1 hcontext
    obtain ⟨p, hp, rfl⟩ := List.mem_map.1 hmem
    have hlt := hplaces r hr p hp
    have hlength : (ofRows rows keepsValues predicates labels).predicates.length =
      predicates.length := List.length_map _
    rw [isShort, Bool.and_eq_true, decide_eq_true_eq, decide_eq_true_eq, hlength, Int.ofNat_eq_natCast]
    omega
  weights := by
    simp only [ofRows, List.forall_mem_map]
    exact fun r hr => Binary64.isFinite_ofInt (hcounts r hr)
  outcomes := by
    simp only [ofRows, List.forall_mem_map]
    intro r hr
    have hlt := houtcomes r hr
    rw [isShort, Bool.and_eq_true, decide_eq_true_eq, decide_eq_true_eq]
    omega

end EventIndex

namespace Spool

theorem length_replay_le (events : List Event) : (replay events).length ≤ events.length := by
  rw [replay_eq_filterMap]
  exact List.length_filterMap_le _ _

end Spool

end MaxEnt
