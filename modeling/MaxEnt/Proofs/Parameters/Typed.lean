import MaxEnt.Parameters.Basic
import MaxEnt.Proofs.Except
import MaxEnt.Proofs.Table

namespace MaxEnt

namespace Held

variable {α : Type}

def IsProper (h : Held α) : Prop := ∃ value, h = .proper value

theorem isProper_of_convert [Kind α] {value : Json} {h : Held α} (hc : convert value = .ok h) :
    h.IsProper := by
  obtain ⟨v, -, hv⟩ := Except.map_eq_ok hc
  exact ⟨v, hv.symm⟩

end Held

namespace Parameters

variable {ps qs : Parameters} {values : Table Text Json}

structure Typed (ps : Parameters) : Prop where
  algorithm : ps.algorithm.IsProper
  trainerType : ps.trainerType.IsProper
  iterations : ps.iterations.IsProper
  cutoff : ps.cutoff.IsProper
  indexer : ps.indexer.IsProper
  sortAndMerge : ps.sortAndMerge.IsProper
  smoothing : ps.smoothing.IsProper
  smoothingObservation : ps.smoothingObservation.IsProper
  threshold : ps.threshold.IsProper

theorem typed_default : Typed {} := by
  constructor <;> exact ⟨_, rfl⟩

theorem Typed.assign (h : ps.Typed) {value : Json} {p : Parameter} (ha : ps.assign value p = .ok qs) :
    qs.Typed := by
  cases p <;> obtain ⟨held, hc, rfl⟩ := Except.map_eq_ok ha
  case algorithm => exact { h with algorithm := Held.isProper_of_convert hc }
  case trainerType => exact { h with trainerType := Held.isProper_of_convert hc }
  case iterations => exact { h with iterations := Held.isProper_of_convert hc }
  case cutoff => exact { h with cutoff := Held.isProper_of_convert hc }
  case indexer => exact { h with indexer := Held.isProper_of_convert hc }
  case sortAndMerge => exact { h with sortAndMerge := Held.isProper_of_convert hc }
  case smoothing => exact { h with smoothing := Held.isProper_of_convert hc }
  case smoothingObservation => exact { h with smoothingObservation := Held.isProper_of_convert hc }
  case threshold => exact { h with threshold := Held.isProper_of_convert hc }

theorem assign_hidden {value : Json} {p : Parameter} (ha : ps.assign value p = .ok qs) :
    qs.hidden = ps.hidden := by
  cases p <;> obtain ⟨held, -, rfl⟩ := Except.map_eq_ok ha <;> rfl

theorem foldl_take {P : Parameters → Prop}
    (hassign : ∀ (ps qs : Parameters) (value : Json) (p : Parameter),
      P ps → ps.assign value p = .ok qs → P qs)
    {acc : Parameters × ConversionFaults} (h : P acc.1) (parameters : List Parameter) :
    P (parameters.foldl (take values) acc).1 := by
  induction parameters generalizing acc with
  | nil => exact h
  | cons p parameters ih =>
    apply ih
    unfold take
    split
    · exact h
    · split
      · rename_i ha
        exact hassign _ _ _ p h ha
      · exact h

theorem ofMapping_eq_ok (h : ofMapping values = .ok ps) :
    ps = { (Parameter.all.foldl (take values) ({}, [])).1 with options := .ofList (optionsOf values) } := by
  unfold ofMapping at h
  simp only at h
  split at h
  · cases h
  · split at h
    · exact (Except.ok.inj h).symm
    · cases h

theorem hasSurrogate_of_ofMapping (h : ofMapping values = .ok ps) :
    values.keys.any Text.hasSurrogate = false := by
  unfold ofMapping at h
  simp only at h
  split at h
  · cases h
  · rename_i hkeys
    exact Bool.eq_false_iff.2 hkeys

theorem typed_ofMapping (h : ofMapping values = .ok ps) : ps.Typed := by
  have ht : (Parameter.all.foldl (take values) ({}, [])).1.Typed :=
    foldl_take (P := Typed) (fun _ _ _ _ hps ha => hps.assign ha) typed_default _
  rw [ofMapping_eq_ok h]
  exact { ht with }

theorem hidden_ofMapping (h : ofMapping values = .ok ps) : ps.hidden = .empty := by
  have hhidden : (Parameter.all.foldl (take values) ({}, [])).1.hidden = .empty :=
    foldl_take (P := fun ps => ps.hidden = .empty) (fun _ _ _ _ hps ha => (assign_hidden ha).trans hps)
      rfl _
  rw [ofMapping_eq_ok h]
  exact hhidden

/-- No option has the name of a parameter. Else it would take the place of the parameter when
anything is set. -/
def Distinct (ps : Parameters) : Prop :=
  ∀ name ∈ ps.hidden.keys ++ ps.options.keys, Parameter.ofName? name = none

instance (ps : Parameters) : Decidable ps.Distinct :=
  inferInstanceAs (Decidable (∀ name ∈ ps.hidden.keys ++ ps.options.keys, _))

theorem foldl_putOption {es : List (Text × Json)} (h : ∀ e ∈ es, Parameter.ofName? e.1 = none)
    (ps : Parameters) : es.foldl putOption ps = ps := by
  induction es with
  | nil => rfl
  | cons e es ih =>
    rw [List.forall_mem_cons] at h
    have he : ps.putOption e = ps := by
      rw [putOption, h.1]
      rfl
    rw [List.foldl_cons, he, ih h.2]

theorem Distinct.settle (h : ps.Distinct) :
    ∃ options, ps.settle = { ps with options := options, hidden := .empty } := by
  have hgiven : ∀ e ∈ (ps.hidden.union ps.options).entries, Parameter.ofName? e.1 = none := by
    intro e he
    rcases Table.mem_of_mem_union he with he | he
    · exact h e.1 (List.mem_append_left _ (List.mem_map_of_mem he))
    · exact h e.1 (List.mem_append_right _ (List.mem_map_of_mem he))
  exact ⟨_, foldl_putOption hgiven _⟩

/-- A mapping that gives no parameter twice, by its property and by its name, leaves none of them
over as an option. -/
theorem distinct_ofMapping (h : ofMapping values = .ok ps)
    (honce : ∀ p : Parameter, values.contains p.property = true → values.contains p.name = false) :
    ps.Distinct := by
  have hnone : ∀ name ∈ (Table.ofList (optionsOf values)).keys, Parameter.ofName? name = none := by
    intro name hname
    rw [← Table.isSome_get?_iff, Table.isSome_get?_ofList] at hname
    obtain ⟨e, he, rfl⟩ := List.mem_map.1 hname
    obtain ⟨hgiven, hunused⟩ := List.mem_filter.1 he
    by_contra hp
    obtain ⟨p, hp⟩ := Option.ne_none_iff_exists'.1 hp
    have hpname : p.name = e.1 := by simpa using List.find?_some hp
    have hcontains : values.contains p.name = true := by
      rw [hpname, Table.contains, Table.isSome_get?_iff]
      exact List.mem_map_of_mem hgiven
    have hproperty : ¬ values.contains p.property = true := by
      intro hproperty
      rw [honce p hproperty] at hcontains
      cases hcontains
    have hkey : p.key? values = some e.1 := by
      rw [Parameter.key?, if_neg hproperty, if_pos hcontains, hpname]
    have hused : e.1 ∈ Parameter.all.filterMap (·.key? values) :=
      List.mem_filterMap.2 ⟨p, by cases p <;> decide, hkey⟩
    rw [Bool.not_eq_true', ← Bool.not_eq_true, List.contains_iff_mem] at hunused
    exact hunused hused
  intro name hname
  rw [hidden_ofMapping h, ofMapping_eq_ok h] at hname
  exact hnone name hname

end Parameters

end MaxEnt
