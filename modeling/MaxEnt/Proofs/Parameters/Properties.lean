import MaxEnt.Proofs.Parameters.Conversion
import MaxEnt.Proofs.Parameters.History

namespace MaxEnt

namespace Parameter

theorem nodup_properties : (all.map property).Nodup := by decide

theorem property_inj {f g : Parameter} (h : f.property = g.property) : f = g :=
  List.inj_on_of_nodup_map nodup_properties (mem_all f) (mem_all g) h

theorem property_ne_name (f g : Parameter) : f.property ≠ g.name := by
  have hall : ∀ f ∈ all, ∀ g ∈ all, f.property ≠ g.name := by decide
  exact hall f (mem_all f) g (mem_all g)

end Parameter

namespace Parameters

variable {values : Table Text Json} {ps qs : Parameters} {f g : Parameter}

theorem isSet_eq_false_iff {j : Json} : isSet j = false ↔ j = .null := by
  cases j <;> simp [isSet]

/-- The place of a parameter: the kind of its values, and how one is got and set. -/
structure Place (f : Parameter) where
  Value : Type
  [kind : Kind Value]
  told : Kind.Told Value
  get : Parameters → Held Value
  set : Parameters → Held Value → Parameters
  proper : ∀ {ps}, ps.Typed → (get ps).IsProper
  set_get : ∀ ps, set ps (get ps) = ps := by intros; rfl
  value_eq : ∀ ps, ps.value f = (get ps).json := by intros; rfl
  put_eq : ∀ ps j, ps.put j f = set ps (.ofJson j) := by intros; rfl
  assign_eq : ∀ ps j, ps.assign j f = (Held.convert j).map (set ps) := by intros; rfl
  default_eq : ∀ v : Value, isSet (Kind.json v) = false → value {} f = .null := by
    intro v h
    first | rfl | cases h

def place : (f : Parameter) → Place f
  | .algorithm =>
    { Value := Text, told := Kind.told_text, proper := Typed.algorithm
      get := algorithm, set := fun ps h => { ps with algorithm := h } }
  | .trainerType =>
    { Value := Text, told := Kind.told_text, proper := Typed.trainerType
      get := trainerType, set := fun ps h => { ps with trainerType := h } }
  | .iterations =>
    { Value := Int, told := Kind.told_int, proper := Typed.iterations
      get := iterations, set := fun ps h => { ps with iterations := h } }
  | .cutoff =>
    { Value := Option Int, told := Kind.told_int.option fun _ => rfl, proper := Typed.cutoff
      get := cutoff, set := fun ps h => { ps with cutoff := h } }
  | .indexer =>
    { Value := Text, told := Kind.told_text, proper := Typed.indexer
      get := indexer, set := fun ps h => { ps with indexer := h } }
  | .sortAndMerge =>
    { Value := Option Bool, told := Kind.told_bool.option fun _ => rfl, proper := Typed.sortAndMerge
      get := sortAndMerge, set := fun ps h => { ps with sortAndMerge := h } }
  | .smoothing =>
    { Value := Bool, told := Kind.told_bool, proper := Typed.smoothing
      get := smoothing, set := fun ps h => { ps with smoothing := h } }
  | .smoothingObservation =>
    { Value := Binary64, told := Kind.told_binary64, proper := Typed.smoothingObservation
      get := smoothingObservation, set := fun ps h => { ps with smoothingObservation := h } }
  | .threshold =>
    { Value := Binary64, told := Kind.told_binary64, proper := Typed.threshold
      get := threshold, set := fun ps h => { ps with threshold := h } }

theorem value_put_of_ne (h : g ≠ f) (ps : Parameters) (j : Json) :
    (ps.put j f).value g = ps.value g := by
  cases f <;> cases g <;> first | rfl | exact absurd rfl h

theorem Typed.put_value (h : ps.Typed) (f : Parameter) : ps.put (ps.value f) f = ps := by
  obtain ⟨Value, told, get, set, proper, set_get, value_eq, put_eq, -, -⟩ := place f
  rw [put_eq, value_eq, Held.ofJson_json told (proper h), set_get]

theorem Typed.assign_property (h : ps.Typed) (hlegible : (ps.value f).Legible)
    (hset : isSet (ps.value f) = true) (qs : Parameters) :
    qs.assign (.string (ps.value f).property) f = .ok (qs.put (ps.value f) f) := by
  obtain ⟨Value, told, get, set, proper, -, value_eq, put_eq, assign_eq, -⟩ := place f
  rw [value_eq] at hlegible hset ⊢
  rw [assign_eq, put_eq, Held.convert_property told (proper h) hlegible hset]
  rfl

theorem Typed.value_default (h : ps.Typed) (hunset : isSet (ps.value f) = false) :
    value {} f = ps.value f := by
  obtain ⟨Value, told, get, set, proper, -, value_eq, -, -, default_eq⟩ := place f
  rw [isSet_eq_false_iff.1 hunset]
  rw [value_eq] at hunset
  obtain ⟨v, hv⟩ := proper h
  rw [hv] at hunset
  exact default_eq v hunset

theorem Typed.foldl_put (h : ps.Typed) (qs : Parameters) :
    Parameter.all.foldl (fun qs f => qs.put (ps.value f) f) qs =
      { ps with options := qs.options, hidden := qs.hidden } := by
  simp only [Parameter.all, List.foldl_cons, List.foldl_nil, put, value,
    Held.ofJson_json Kind.told_text h.algorithm, Held.ofJson_json Kind.told_text h.trainerType,
    Held.ofJson_json Kind.told_int h.iterations,
    Held.ofJson_json (Kind.told_int.option fun _ => rfl) h.cutoff,
    Held.ofJson_json Kind.told_text h.indexer,
    Held.ofJson_json (Kind.told_bool.option fun _ => rfl) h.sortAndMerge,
    Held.ofJson_json Kind.told_bool h.smoothing,
    Held.ofJson_json Kind.told_binary64 h.smoothingObservation,
    Held.ofJson_json Kind.told_binary64 h.threshold]

def Apart (ps : Parameters) : Prop :=
  ∀ f : Parameter, f.name ∉ ps.options.keys ∧ f.property ∉ ps.options.keys

theorem entries_properties (h : ps.Apart) : ps.properties.entries =
    ((Parameter.all.filter fun f => isSet (ps.value f)).map
      fun f => (f.property, (ps.value f).property)) ++
    (ps.options.entries.filter fun e => isSet e.2).map fun e => (e.1, e.2.property) := by
  have hkeys : ((Parameter.all.map fun f => (f.property, ps.value f)) ++
      ps.options.entries).map Prod.fst = Parameter.all.map Parameter.property ++ ps.options.keys := by
    rw [List.map_append, List.map_map]
    rfl
  have hnodup : (Parameter.all.map Parameter.property ++ ps.options.keys).Nodup := by
    refine List.nodup_append.2 ⟨Parameter.nodup_properties, ps.options.nodup, ?_⟩
    rintro _ hf key hkey rfl
    obtain ⟨f, -, rfl⟩ := List.mem_map.1 hf
    exact (h f).2 hkey
  rw [properties, Table.entries_ofList, List.filter_append, List.map_append, List.filter_map,
    List.map_map]
  · rfl
  · rw [List.map_map]
    refine List.Nodup.sublist (List.Sublist.map Prod.fst List.filter_sublist) ?_
    rw [hkeys]
    exact hnodup

theorem key_cases (h : ps.Apart) {key t : Text} (hmem : (key, t) ∈ ps.properties.entries) :
    (∃ f : Parameter, isSet (ps.value f) = true ∧ f.property = key) ∨ key ∈ ps.options.keys := by
  rw [entries_properties h] at hmem
  rcases List.mem_append.1 hmem with hmem | hmem
  · obtain ⟨f, hf, hkey⟩ := List.mem_map.1 hmem
    exact .inl ⟨f, (List.mem_filter.1 hf).2, (Prod.mk.inj hkey).1⟩
  · obtain ⟨e, he, hkey⟩ := List.mem_map.1 hmem
    exact .inr ((Prod.mk.inj hkey).1 ▸ List.mem_map_of_mem (List.mem_filter.1 he).1)

theorem get?_properties (h : ps.Apart) (f : Parameter) :
    ps.properties.get? f.property =
      if isSet (ps.value f) then some (ps.value f).property else none := by
  split
  · rename_i hset
    rw [Table.get?_eq_some_iff, entries_properties h]
    exact List.mem_append_left _ (List.mem_map.2
      ⟨f, List.mem_filter.2 ⟨Parameter.mem_all f, hset⟩, rfl⟩)
  · rename_i hunset
    refine Option.eq_none_iff_forall_ne_some.2 fun t ht => ?_
    rcases key_cases h ((Table.get?_eq_some_iff _ _ _).1 ht) with ⟨g, hset, hkey⟩ | hkey
    · exact hunset (Parameter.property_inj hkey ▸ hset)
    · exact (h f).2 hkey

theorem get?_properties_name (h : ps.Apart) (f : Parameter) : ps.properties.get? f.name = none := by
  refine Option.eq_none_iff_forall_ne_some.2 fun t ht => ?_
  rcases key_cases h ((Table.get?_eq_some_iff _ _ _).1 ht) with ⟨g, -, hkey⟩ | hkey
  · exact Parameter.property_ne_name g f hkey
  · exact (h f).1 hkey

def recorded (ps : Parameters) : Table Text Json := ps.properties.map .string

theorem entries_recorded (h : ps.Apart) : ps.recorded.entries =
    ((Parameter.all.filter fun f => isSet (ps.value f)).map
      fun f => (f.property, .string (ps.value f).property)) ++
    (ps.options.entries.filter fun e => isSet e.2).map fun e => (e.1, .string e.2.property) := by
  change ps.properties.entries.map (fun e => (e.1, Json.string e.2)) = _
  rw [entries_properties h, List.map_append, List.map_map, List.map_map]
  rfl

theorem get?_recorded (h : ps.Apart) (f : Parameter) : ps.recorded.get? f.property =
    if isSet (ps.value f) then some (.string (ps.value f).property) else none := by
  rw [recorded, Table.get?_map, get?_properties h]
  split <;> rfl

theorem key?_recorded (h : ps.Apart) (f : Parameter) :
    f.key? ps.recorded = if isSet (ps.value f) then some f.property else none := by
  have hname : ps.recorded.contains f.name = false := by
    rw [recorded, Table.contains, Table.get?_map, get?_properties_name h]
    rfl
  rw [Parameter.key?, hname, Table.contains, get?_recorded h]
  split <;> rfl

theorem take_recorded (htyped : ps.Typed) (h : ps.Apart) (hlegible : (ps.value f).Legible)
    (hqs : qs.Typed) (hdefault : qs.value f = value {} f) :
    take ps.recorded (qs, []) f = (qs.put (ps.value f) f, []) ∧ (qs.put (ps.value f) f).Typed := by
  cases hset : isSet (ps.value f) with
  | true =>
    have hassign := htyped.assign_property hlegible hset qs
    refine ⟨?_, hqs.assign hassign⟩
    simp only [take, key?_recorded h, get?_recorded h, hset, if_true, Option.getD_some, hassign]
  | false =>
    rw [← htyped.value_default hset, ← hdefault, hqs.put_value]
    refine ⟨?_, hqs⟩
    simp only [take, key?_recorded h, hset, Bool.false_eq_true, if_false]

theorem foldl_take_recorded (htyped : ps.Typed) (h : ps.Apart)
    (hlegible : ∀ f, (ps.value f).Legible) {fs : List Parameter} (hfs : fs.Nodup) (hqs : qs.Typed)
    (hdefault : ∀ f ∈ fs, qs.value f = value {} f) :
    fs.foldl (take ps.recorded) (qs, []) = (fs.foldl (fun qs f => qs.put (ps.value f) f) qs, []) := by
  induction fs generalizing qs with
  | nil => rfl
  | cons f fs ih =>
    obtain ⟨hf, hfs⟩ := List.nodup_cons.1 hfs
    obtain ⟨hfirst, hrest⟩ := List.forall_mem_cons.1 hdefault
    obtain ⟨hstep, htypedStep⟩ := take_recorded htyped h (hlegible f) hqs hfirst
    rw [List.foldl_cons, List.foldl_cons, hstep]
    refine ih hfs htypedStep fun g hg => ?_
    have hne : g ≠ f := fun he => hf (he ▸ hg)
    rw [value_put_of_ne hne, hrest g hg]

theorem optionsOf_recorded (h : ps.Apart) : optionsOf ps.recorded =
    (ps.options.entries.filter fun e => isSet e.2).map fun e => (e.1, .string e.2.property) := by
  have hused : ∀ key, key ∈ Parameter.all.filterMap (·.key? ps.recorded) ↔
      ∃ f : Parameter, isSet (ps.value f) = true ∧ f.property = key := by
    intro key
    simp only [List.mem_filterMap, key?_recorded h, Option.ite_none_right_eq_some, Option.some.injEq]
    exact ⟨fun ⟨f, _, hf⟩ => ⟨f, hf⟩, fun ⟨f, hf⟩ => ⟨f, Parameter.mem_all f, hf⟩⟩
  simp only [optionsOf, entries_recorded h, List.filter_append]
  have hparameters : ∀ e ∈ (Parameter.all.filter fun f => isSet (ps.value f)).map
      (fun f => (f.property, Json.string (ps.value f).property)),
      ¬ (!(Parameter.all.filterMap (·.key? ps.recorded)).contains e.1) = true := by
    refine List.forall_mem_map.2 fun f hf => ?_
    simp only [Bool.not_eq_true', Bool.not_eq_false, List.contains_iff_mem]
    exact (hused _).2 ⟨f, (List.mem_filter.1 hf).2, rfl⟩
  have hoptions : ∀ e ∈ (ps.options.entries.filter fun e => isSet e.2).map
      (fun e => (e.1, Json.string e.2.property)),
      (!(Parameter.all.filterMap (·.key? ps.recorded)).contains e.1) = true := by
    refine List.forall_mem_map.2 fun e he => ?_
    rw [Bool.not_eq_true', ← Bool.not_eq_true, List.contains_iff_mem, hused]
    rintro ⟨f, -, hkey⟩
    have hmem : e.1 ∈ ps.options.keys := List.mem_map_of_mem (List.mem_filter.1 he).1
    exact (h f).2 (hkey ▸ hmem)
  rw [List.filter_eq_nil_iff.2 hparameters, List.filter_eq_self.2 hoptions, List.nil_append]

theorem nodup_optionsOf_recorded (h : ps.Apart) : ((optionsOf ps.recorded).map Prod.fst).Nodup := by
  rw [optionsOf_recorded h, List.map_map]
  exact ps.options.nodup.sublist (List.Sublist.map Prod.fst List.filter_sublist)

theorem hasSurrogate_recorded (h : ps.Apart)
    (hkeys : ∀ key ∈ ps.options.keys, key.hasSurrogate = false) :
    ps.recorded.keys.any Text.hasSurrogate = false := by
  have hproperties : ∀ f ∈ Parameter.all, f.property.hasSurrogate = false := by decide
  have hall : ∀ e ∈ ps.recorded.entries, e.1.hasSurrogate = false := by
    rw [entries_recorded h]
    refine List.forall_mem_append.2 ⟨List.forall_mem_map.2 fun f hf => ?_,
      List.forall_mem_map.2 fun e he => ?_⟩
    · exact hproperties f (List.mem_filter.1 hf).1
    · exact hkeys e.1 (List.mem_map_of_mem (List.mem_filter.1 he).1)
  rw [Table.keys, List.any_eq_false]
  exact List.forall_mem_map.2 fun e he => Bool.eq_false_iff.1 (hall e he)

theorem ofMapping_recorded (htyped : ps.Typed) (h : ps.Apart) (hlegible : ∀ f, (ps.value f).Legible)
    (hkeys : ∀ key ∈ ps.options.keys, key.hasSurrogate = false) : ofMapping ps.recorded =
      .ok { ps with options := .ofList (optionsOf ps.recorded), hidden := .empty } := by
  have hnodup : Parameter.all.Nodup := by decide
  have htaken := foldl_take_recorded htyped h hlegible hnodup typed_default fun _ _ => rfl
  rw [ofMapping, htaken, htyped.foldl_put, hasSurrogate_recorded h hkeys]
  rfl

theorem properties_eq_of_values (hvalues : ∀ f, qs.value f = ps.value f)
    (hoptions : qs.options.entries =
      (ps.options.entries.filter fun e => isSet e.2).map fun e => (e.1, .string e.2.property)) :
    qs.properties = ps.properties := by
  have hset : ∀ e ∈ (ps.options.entries.filter fun e => isSet e.2).map
      (fun e => (e.1, Json.string e.2.property)), isSet e.2 = true :=
    List.forall_mem_map.2 fun _ _ => rfl
  simp only [properties, hvalues, hoptions, List.filter_append, List.map_append,
    List.filter_eq_self.2 hset, List.map_map]
  rfl

/-- Take parameters that a mapping gives, some of which are set under their names after that. Made
once more from their properties, they are the same if and only if each holds a value of its kind; the
options that are not null then come back as texts, in their order, and the properties are the same
again. Each holds a value of its kind if the mapping gives none both by its property and by its
name. -/
theorem ofMapping_properties (h : Reached values ps) (hapart : ps.Apart)
    (hlegible : ∀ f, (ps.value f).Legible) :
    ((∀ f : Parameter, values.contains f.property = true → values.contains f.name = false) →
      ps.Typed) ∧
    (ps.Typed ↔ ∃ qs, ofMapping (ps.properties.map .string) = .ok qs ∧
      qs = { ps with options := qs.options } ∧
      qs.options.entries =
        ((ps.options.entries.filter fun e => isSet e.2).map fun e => (e.1, .string e.2.property)) ∧
      qs.properties = ps.properties) := by
  refine ⟨fun honce => (h.typed honce).1, fun htyped => ?_, ?_⟩
  · have hentries := Table.entries_ofList (nodup_optionsOf_recorded hapart)
    rw [optionsOf_recorded hapart] at hentries
    refine ⟨_, ofMapping_recorded htyped hapart hlegible h.hasSurrogate, ?_, ?_, ?_⟩
    · rw [h.options.1]
    · rw [optionsOf_recorded hapart]
      exact hentries
    · refine properties_eq_of_values (fun f => by cases f <;> rfl) ?_
      rw [optionsOf_recorded hapart]
      exact hentries
  · rintro ⟨qs, hqs, hsame, -⟩
    have htyped := typed_ofMapping hqs
    rw [hsame] at htyped
    exact { htyped with }

def variedValues : Table Text Json := .ofList [("Iterations", .string " 50 "), ("Custom", .bool true),
  ("cutoff", .real .one), ("Gone", .null), ("Items", .array [.bool true, .null])]

def variedStart : Parameters :=
  { iterations := .proper 50, cutoff := .proper (some 1)
    options := .ofList [("Custom", .bool true), ("Gone", .null),
      ("Items", .array [.bool true, .null])] }

def variedParameters : Parameters := { variedStart with smoothing := .proper true }

def variedTexts : List (Text × Json) :=
  [("Custom", .string "true"), ("Items", .string "[True, None]")]

theorem ofMapping_properties_variedValues :
    (Reached variedValues variedParameters ∧ variedParameters.Apart ∧
      ∀ f, (variedParameters.value f).Legible) ∧
    ∃ qs, ofMapping (variedParameters.properties.map .string) = .ok qs ∧
      qs.cutoff = .proper (some 1) ∧ qs.sortAndMerge = .proper none ∧
      qs.options.entries = variedTexts ∧ qs.properties = variedParameters.properties := by
  have hreached : Reached variedValues variedParameters :=
    .set (.given (rfl : ofMapping variedValues = .ok variedStart)) .smoothing (.string "YES") rfl
  have hapart : variedParameters.Apart := fun f => by cases f <;> decide
  have hlegible : ∀ f, (variedParameters.value f).Legible := fun f => by cases f <;> decide +kernel
  have htyped : variedParameters.Typed := by constructor <;> exact ⟨_, rfl⟩
  obtain ⟨-, hiff⟩ := ofMapping_properties hreached hapart hlegible
  obtain ⟨qs, hqs, hsame, hoptions, hproperties⟩ := hiff.1 htyped
  refine ⟨⟨hreached, hapart, hlegible⟩, qs, hqs, ?_, ?_, hoptions.trans rfl, hproperties⟩
  · rw [hsame]
    rfl
  · rw [hsame]
    rfl

def twiceValues : Table Text Json := .ofList [("Cutoff", .int 6), ("cutoff", .string "many")]

def twiceStart : Parameters :=
  { cutoff := .proper (some 6), options := .ofList [("cutoff", .string "many")] }

/-- The option has taken the place of the parameter when another was set. -/
def twiceParameters : Parameters := { iterations := .proper 5, cutoff := .loose (.string "many") }

/-- Then no parameters at all can be made of the properties. -/
theorem not_ofMapping_properties_twiceValues :
    (ofMapping twiceValues = .ok twiceStart ∧
      twiceStart.set Parameter.iterations.name (.int 5) = .ok twiceParameters) ∧
    twiceParameters.Apart ∧ (∀ f, (twiceParameters.value f).Legible) ∧
    ¬ ∃ qs, ofMapping (twiceParameters.properties.map .string) = .ok qs := by
  have hfails : (ofMapping (twiceParameters.properties.map .string)).toOption.isNone = true := by
    decide +kernel
  refine ⟨⟨rfl, rfl⟩, fun f => by cases f <;> decide, fun f => by cases f <;> decide +kernel, ?_⟩
  rintro ⟨qs, hqs⟩
  rw [hqs] at hfails
  cases hfails

end Parameters

end MaxEnt
