import MaxEnt.Proofs.Parameters.Typed
import MaxEnt.Training.Trainer

namespace MaxEnt

def Json.IsBelow (bound : Int) (value : Json) : Prop :=
  ∃ n, Number.ofJson? value = some n ∧ n.isBelow bound = true

namespace Parameters

variable {ps : Parameters}

/-- The algorithm is no list and no object, the iterations are a number, and so is the cutoff unless
it is unset. -/
structure Comparable (ps : Parameters) : Prop where
  not_array : ∀ items, ps.algorithm ≠ .loose (.array items)
  not_object : ∀ members, ps.algorithm ≠ .loose (.object members)
  iterations : (Number.ofJson? ps.iterations.json).isSome = true
  cutoff : ps.cutoff.json = .null ∨ (Number.ofJson? ps.cutoff.json).isSome = true

theorem Typed.comparable (h : ps.Typed) : ps.Comparable := by
  obtain ⟨name, hname⟩ := h.algorithm
  obtain ⟨n, hn⟩ := h.iterations
  obtain ⟨cutoff, hcutoff⟩ := h.cutoff
  constructor
  · intro items hitems
    rw [hname] at hitems
    cases hitems
  · intro members hmembers
    rw [hname] at hmembers
    cases hmembers
  · rw [hn]
    rfl
  · rw [hcutoff]
    cases cutoff with
    | none => exact .inl rfl
    | some c => exact .inr rfl

def Registered (ps : Parameters) : Prop :=
  ∃ name m, ps.algorithm = .proper name ∧ Method.ofName? name = some m

/-- What forbids training whatever the algorithm is: a trainer type other than the one for events, an
indexer that is unknown, less than one iteration, or a cutoff below zero. -/
def Unfit (ps : Parameters) : Prop :=
  ps.trainerType.proper? ≠ some "Event" ∨ (∀ i : Indexer, ps.indexer.proper? ≠ some i.name) ∨
    ps.iterations.json.IsBelow 1 ∨ ps.cutoff.json.IsBelow 0

end Parameters

/-- A check that refuses what is bad, because of the configuration, and lets all else pass. -/
def Refuses (check : Except ParameterError Unit) (bad : Prop) : Prop :=
  (bad ∧ ∃ e, check = .error (.configuration e)) ∨ (¬ bad ∧ check = .ok ())

namespace Refuses

variable {check next : Except ParameterError Unit} {bad worse : Prop}

theorem error_iff (h : Refuses check bad) : (∃ e, check = .error (.configuration e)) ↔ bad := by
  rcases h with ⟨hbad, he⟩ | ⟨hgood, hok⟩
  · exact ⟨fun _ => hbad, fun _ => he⟩
  · refine ⟨?_, fun hbad => absurd hbad hgood⟩
    rintro ⟨e, he⟩
    rw [hok] at he
    cases he

theorem ok_iff (h : Refuses check bad) : check = .ok () ↔ ¬ bad := by
  rcases h with ⟨hbad, e, he⟩ | ⟨hgood, hok⟩
  · rw [he]
    exact ⟨fun hok => (by cases hok), fun hgood => absurd hbad hgood⟩
  · exact ⟨fun _ => hgood, fun _ => hok⟩

theorem congr (h : Refuses check bad) (hbad : bad ↔ worse) : Refuses check worse := by
  rwa [propext hbad] at h

theorem seq (h : Refuses check bad) (hnext : Refuses next worse) :
    Refuses (check >>= fun _ => next) (bad ∨ worse) := by
  rcases h with ⟨hbad, e, rfl⟩ | ⟨hgood, rfl⟩
  · exact .inl ⟨.inl hbad, e, rfl⟩
  · rcases hnext with ⟨hbad, e, rfl⟩ | ⟨hgood', rfl⟩
    · exact .inl ⟨.inr hbad, e, rfl⟩
    · exact .inr ⟨not_or.2 ⟨hgood, hgood'⟩, rfl⟩

end Refuses

namespace Trainer

variable {ps : Parameters}

theorem refuses_checkTrainerType (h : Held Text) :
    Refuses ((checkTrainerType h).mapError .configuration) (h.proper? ≠ some "Event") := by
  cases h with
  | proper name =>
    by_cases hname : name = "Event"
    · rw [checkTrainerType, if_pos hname, hname]
      exact .inr ⟨fun h => h rfl, rfl⟩
    · rw [checkTrainerType, if_neg hname]
      exact .inl ⟨fun h => hname (Option.some.inj h), _, rfl⟩
  | loose value => exact .inl ⟨fun h => (by cases h), _, rfl⟩

theorem ofName?_name (i : Indexer) : Indexer.ofName? i.name = some i := by
  cases i <;> decide

theorem name_injective {i j : Indexer} (h : i.name = j.name) : i = j := by
  have hfound := congrArg Indexer.ofName? h
  rw [ofName?_name, ofName?_name] at hfound
  exact Option.some.inj hfound

theorem name_of_ofName? {name : Text} {i : Indexer} (h : Indexer.ofName? name = some i) :
    i.name = name := by simpa using List.find?_some h

theorem refuses_checkIndexer (h : Held Text) :
    Refuses ((checkIndexer h).mapError .configuration) (∀ i : Indexer, h.proper? ≠ some i.name) := by
  cases h with
  | proper name =>
    cases hi : Indexer.ofName? name with
    | some i =>
      rw [checkIndexer, hi]
      exact .inr ⟨fun h => h i (congrArg some (name_of_ofName? hi).symm), rfl⟩
    | none =>
      rw [checkIndexer, hi]
      refine .inl ⟨fun i h => ?_, _, rfl⟩
      rw [Option.some.inj h, ofName?_name] at hi
      cases hi
  | loose value => exact .inl ⟨fun i h => (by cases h), _, rfl⟩

theorem refuses_checkBound (p : Parameter) (bound : Int) (refusal : Text → ConfigurationError)
    {value : Json} (h : (Number.ofJson? value).isSome = true) :
    Refuses (checkBound p bound refusal value) (value.IsBelow bound) := by
  obtain ⟨n, hn⟩ := Option.isSome_iff_exists.1 h
  by_cases hbelow : n.isBelow bound = true
  · simp only [checkBound, hn, hbelow, if_true]
    exact .inl ⟨⟨n, hn, hbelow⟩, _, rfl⟩
  · simp only [checkBound, hn, hbelow]
    refine .inr ⟨?_, rfl⟩
    rintro ⟨m, hm, hmbelow⟩
    rw [hn, Option.some.injEq] at hm
    exact hbelow (hm ▸ hmbelow)

theorem refuses_checkCutoff {value : Json}
    (h : value = .null ∨ (Number.ofJson? value).isSome = true) :
    Refuses (checkCutoff value) (value.IsBelow 0) := by
  rcases h with rfl | h
  · refine .inr ⟨?_, rfl⟩
    rintro ⟨n, hn, -⟩
    cases hn
  · have hvalue : checkCutoff value = checkBound .cutoff 0 .cutoff value := by
      cases value with
      | null => cases h
      | _ => rfl
    rw [hvalue]
    exact refuses_checkBound _ _ _ h

theorem methodOf_of_registered (h : ps.Registered) :
    ∃ m, methodOf ps.algorithm = .ok m := by
  obtain ⟨name, m, hname, hm⟩ := h
  refine ⟨m, ?_⟩
  rw [methodOf, hname, lookUp, hm]
  rfl

theorem methodOf_eq_ok {algorithm : Held Text} {m : Method} (h : methodOf algorithm = .ok m) :
    ∃ name, algorithm = .proper name ∧ Method.ofName? name = some m := by
  cases algorithm with
  | proper name =>
    rw [methodOf, lookUp] at h
    cases hm : Method.ofName? name with
    | some m' =>
      rw [hm] at h
      exact ⟨name, rfl, hm.trans (congrArg some (Except.ok.inj h))⟩
    | none =>
      rw [hm] at h
      cases h
  | loose value => cases value <;> cases h

theorem eq_scaling_of_ofName? {name : Text} {m : Method} (h : Method.ofName? name = some m) :
    m = .scaling := by
  rw [Method.ofName?] at h
  split at h
  · exact (Option.some.inj h).symm
  · cases h

theorem eq_scaling_of_methodOf {algorithm : Held Text} {m : Method} (h : methodOf algorithm = .ok m) :
    m = .scaling := by
  obtain ⟨name, -, hm⟩ := methodOf_eq_ok h
  exact eq_scaling_of_ofName? hm

theorem registered_of_methodOf {m : Method} (h : methodOf ps.algorithm = .ok m) :
    ps.Registered := by
  obtain ⟨name, hname, hm⟩ := methodOf_eq_ok h
  exact ⟨name, m, hname, hm⟩

theorem refuses_methodOf (h : ps.Comparable) :
    Refuses ((methodOf ps.algorithm).map fun _ => ()) (¬ ps.Registered) := by
  by_cases hr : ps.Registered
  · obtain ⟨m, hm⟩ := methodOf_of_registered hr
    rw [hm]
    exact .inr ⟨not_not_intro hr, rfl⟩
  · refine .inl ⟨hr, ?_⟩
    cases ha : ps.algorithm with
    | proper name =>
      cases hm : Method.ofName? name with
      | some m => exact absurd ⟨name, m, ha, hm⟩ hr
      | none =>
        rw [methodOf, lookUp, hm]
        exact ⟨_, rfl⟩
    | loose value =>
      cases value with
      | array items => exact absurd ha (h.not_array items)
      | object members => exact absurd ha (h.not_object members)
      | _ => exact ⟨_, rfl⟩

/-- Why a trainer refuses parameters. The algorithm matters only as long as no method is known. -/
def Invalid (t : Trainer) (ps : Parameters) : Prop :=
  ps.Unfit ∨ (t.method = none ∧ ¬ ps.Registered)

def checkAlgorithm (t : Trainer) (ps : Parameters) : Except ParameterError Unit :=
  if t.method.isNone then (methodOf ps.algorithm).map fun _ => () else .ok ()

theorem validate_eq (t : Trainer) (ps : Parameters) : t.validate ps = (do
    (checkTrainerType ps.trainerType).mapError .configuration
    t.checkAlgorithm ps
    (checkIndexer ps.indexer).mapError .configuration
    checkBound .iterations 1 .iterations ps.iterations.json
    checkCutoff ps.cutoff.json) := by
  rw [validate, checkAlgorithm]
  cases t.method with
  | some m => rfl
  | none =>
    cases methodOf ps.algorithm <;> rfl

theorem refuses_checkAlgorithm (t : Trainer) (h : ps.Comparable) :
    Refuses (t.checkAlgorithm ps) (t.method = none ∧ ¬ ps.Registered) := by
  rw [checkAlgorithm]
  cases t.method with
  | some m => exact .inr ⟨fun h => (by cases h.1), rfl⟩
  | none => exact (refuses_methodOf h).congr (by rw [eq_self_iff_true, true_and])

theorem refuses_validate (t : Trainer) (h : ps.Comparable) :
    Refuses (t.validate ps) (t.Invalid ps) := by
  rw [validate_eq]
  have hchecks := (refuses_checkTrainerType ps.trainerType).seq <|
    (t.refuses_checkAlgorithm h).seq <| (refuses_checkIndexer ps.indexer).seq <|
      (refuses_checkBound .iterations 1 .iterations h.iterations).seq (refuses_checkCutoff h.cutoff)
  apply hchecks.congr
  rw [Invalid, Parameters.Unfit]
  tauto

end Trainer

end MaxEnt
