import MaxEnt.Proofs.Parameters.Typed

namespace MaxEnt

theorem Parameter.mem_all (f : Parameter) : f ∈ all := by
  cases f <;> decide

namespace Parameters

variable {values : Table Text Json} {ps qs : Parameters} {f : Parameter}

theorem assign_options {j : Json} (h : ps.assign j f = .ok qs) : qs.options = ps.options := by
  cases f <;> obtain ⟨held, -, rfl⟩ := Except.map_eq_ok h <;> rfl

theorem foldl_putOption_rest (es : List (Text × Json)) (ps : Parameters) :
    (es.foldl putOption ps).options = ps.options ∧ (es.foldl putOption ps).hidden = ps.hidden := by
  induction es generalizing ps with
  | nil => exact ⟨rfl, rfl⟩
  | cons e es ih =>
    have hput : (ps.putOption e).options = ps.options ∧ (ps.putOption e).hidden = ps.hidden := by
      rw [putOption]
      cases Parameter.ofName? e.1 with
      | none => exact ⟨rfl, rfl⟩
      | some f => cases f <;> exact ⟨rfl, rfl⟩
    rw [List.foldl_cons, (ih _).1, (ih _).2]
    exact hput

theorem hidden_settle (ps : Parameters) : ps.settle.hidden = .empty := (foldl_putOption_rest _ _).2

theorem of_mem_options_settle {key : Text} (h : key ∈ ps.settle.options.keys) :
    (key ∈ ps.hidden.keys ∨ key ∈ ps.options.keys) ∧ Parameter.ofName? key = none := by
  rw [settle, (foldl_putOption_rest _ _).1] at h
  obtain ⟨e, he, rfl⟩ := List.mem_map.1 h
  obtain ⟨hgiven, hoption⟩ := List.mem_filter.1 he
  exact ⟨(Table.mem_of_mem_union hgiven).imp List.mem_map_of_mem List.mem_map_of_mem,
    Option.isNone_iff_eq_none.1 hoption⟩

theorem distinct_settle (ps : Parameters) : ps.settle.Distinct := by
  intro name hname
  rw [hidden_settle] at hname
  exact (of_mem_options_settle hname).2

/-- What a mapping gives, after parameters were set under their names. -/
inductive Reached (values : Table Text Json) : Parameters → Prop
  | given {ps : Parameters} (h : ofMapping values = .ok ps) : Reached values ps
  | set {ps qs : Parameters} (h : Reached values ps) (f : Parameter) (j : Json)
      (hset : ps.set f.name j = .ok qs) : Reached values qs

theorem assign_of_set {j : Json} (h : ps.set f.name j = .ok qs) : ps.settle.assign j f = .ok qs := by
  have hplain : ∀ f ∈ Parameter.all, readOnlyNames.contains f.name = false ∧
      f.name.head? ≠ some ↑ '_' ∧ f.name.hasSurrogate = false ∧
      Parameter.ofName? f.name = some f := by
    decide
  obtain ⟨hreadOnly, hhead, hsurrogate, hname⟩ := hplain f (Parameter.mem_all f)
  simp only [set, hreadOnly, hhead, hsurrogate, hname, Bool.false_eq_true, if_false] at h
  exact Except.mapError_eq_ok h

/-- No name with an underscore in front was set, and no option was added. -/
theorem Reached.options (h : Reached values ps) :
    ps.hidden = .empty ∧ ∀ key ∈ ps.options.keys, key ∈ values.keys := by
  induction h with
  | given h =>
    refine ⟨hidden_ofMapping h, fun key hkey => ?_⟩
    rw [ofMapping_eq_ok h] at hkey
    obtain ⟨e, he, rfl⟩ := List.mem_map.1 hkey
    exact List.mem_map_of_mem (List.mem_filter.1 (Table.mem_of_mem_ofList he)).1
  | set _ f j hset ih =>
    have hassign := assign_of_set hset
    refine ⟨(assign_hidden hassign).trans (hidden_settle _), fun key hkey => ?_⟩
    rw [assign_options hassign] at hkey
    obtain ⟨hhidden | hoption, -⟩ := of_mem_options_settle hkey
    · rw [ih.1] at hhidden
      cases hhidden
    · exact ih.2 key hoption

theorem Reached.hasSurrogate (h : Reached values ps) :
    ∀ key ∈ ps.options.keys, key.hasSurrogate = false := by
  have hvalues : values.keys.any Text.hasSurrogate = false := by
    induction h with
    | given h => exact hasSurrogate_of_ofMapping h
    | set _ _ _ _ ih => exact ih
  exact fun key hkey => Bool.eq_false_iff.2 (List.any_eq_false.1 hvalues key (h.options.2 key hkey))

theorem Reached.typed (h : Reached values ps)
    (honce : ∀ f : Parameter, values.contains f.property = true → values.contains f.name = false) :
    ps.Typed ∧ ps.Distinct := by
  induction h with
  | given h => exact ⟨typed_ofMapping h, distinct_ofMapping h honce⟩
  | @set ps qs _ f j hset ih =>
    obtain ⟨htyped, hdistinct⟩ := ih
    have hassign := assign_of_set hset
    obtain ⟨options, hsettle⟩ := hdistinct.settle
    have hsettled : ps.settle.Typed := hsettle ▸ { htyped with }
    refine ⟨hsettled.assign hassign, ?_⟩
    rw [Distinct, assign_hidden hassign, assign_options hassign]
    exact distinct_settle ps

end Parameters

end MaxEnt
