import MaxEnt.Proofs.Training.Validation

namespace MaxEnt

inductive Operation (ε : Type) where
  /-- Parameters are checked, its own where no others are given. -/
  | validate (given : Option Parameters)
  | set (name : Text) (value : Json)
  | buildIndex (events : Drain ε Event)
  | trainEvents (events : Drain ε Event)
  | trainIndex (x : EventIndex)

namespace Trainer

variable {ε : Type} {t : Trainer}

/-- A trainer with which nothing has been done, and which was given no method. -/
def fresh (ps : Parameters) : Trainer := { parameters := ps }

def after (t : Trainer) : Operation ε → Trainer
  | .validate _ => t
  | .set name value =>
    match t.parameters.set name value with
    | .ok ps => { t with parameters := ps }
    | .error _ => t
  | .buildIndex events => (t.buildIndex (events.mapFailure .source)).trainer
  | .trainEvents events => (t.trainEvents events).trainer
  | .trainIndex x => (t.trainIndex x : Outcome ε Trained).trainer

def Asks (t : Trainer) : Operation ε → Prop
  | .validate _ => False
  | .set _ _ => False
  | .buildIndex _ => True
  | .trainEvents _ => t.validate t.parameters = .ok ()
  | .trainIndex x => t.validate t.parameters = .ok () ∧ 2 ≤ x.labels.length

theorem isSome_toOption_method? (t : Trainer) :
    t.method?.toOption.isSome = true ↔ t.method.isSome = true ∨ t.parameters.Registered := by
  rw [method?]
  cases t.method with
  | some m => exact iff_of_true rfl (.inl rfl)
  | none =>
    constructor
    · intro h
      cases hm : methodOf t.parameters.algorithm with
      | error e =>
        simp only [hm] at h
        cases h
      | ok m => exact .inr (registered_of_methodOf hm)
    · rintro (h | h)
      · cases h
      · obtain ⟨m, hm⟩ := methodOf_of_registered h
        simp only [hm]
        rfl

theorem toOption_method? {m : Method} (h : t.method = some m) : t.method?.toOption = some m := by
  rw [method?, h]
  rfl

theorem method_eq_none {e : ParameterError} (h : t.method? = .error e) : t.method = none := by
  cases hm : t.method with
  | none => rfl
  | some m =>
    rw [method?, hm] at h
    cases h

theorem exists_method? (h : t.validate t.parameters = .ok ()) : ∃ m, t.method? = .ok m := by
  cases hm : t.method with
  | some m => exact ⟨m, by rw [method?, hm]⟩
  | none =>
    rw [validate_eq, checkAlgorithm, hm] at h
    cases hof : methodOf t.parameters.algorithm with
    | ok m => exact ⟨m, by rw [method?, hm]; exact hof⟩
    | error e =>
      rw [hof] at h
      cases htype : checkTrainerType t.parameters.trainerType with
      | ok => rw [htype] at h; cases h
      | error e => rw [htype] at h; cases h

@[simp] theorem method_index (t : Trainer) (indexer : Indexer) (sort : Bool)
    (events : Drain (TrainingError ε) Event) : (t.index indexer sort events).trainer.method = t.method := by
  rw [index]
  split
  · rfl
  · rfl
  · split <;> rfl

theorem method_buildIndex (t : Trainer) (events : Drain (TrainingError ε) Event) :
    (t.buildIndex events).trainer.method = t.method?.toOption := by
  rw [buildIndex]
  cases hm : t.method? with
  | error e => exact method_eq_none hm
  | ok m =>
    cases hi : (t.prepare m).indexer? with
    | error e =>
      simp only [hi]
      rfl
    | ok indexer =>
      simp only [hi]
      exact method_index _ _ _ _

@[simp] theorem method_runMethod (t : Trainer) (m : Method) (x : EventIndex) :
    (t.runMethod m x : Outcome ε Trained).trainer.method = some m := by
  rw [runMethod]
  split <;> rfl

theorem result_runMethod (t : Trainer) (m : Method) (x : EventIndex) :
    (t.runMethod m x : Outcome ε Trained).result =
      ((m.train t.runs t.parameters x).1.mapError .method).map fun r =>
        { r with report := (t.runMethod m x : Outcome ε Trained).trainer.report } := by
  rw [runMethod]
  split
  · rename_i hm
    rw [hm]
    rfl
  · rename_i hm
    rw [hm]
    rfl

theorem runs_runMethod (t : Trainer) (m : Method) (x : EventIndex) :
    (t.runMethod m x : Outcome ε Trained).trainer.runs = t.runs + 1 := by
  rw [runMethod]
  split <;> rfl

theorem trainOn_of_few {x : EventIndex} (hvalid : t.validate t.parameters = .ok ())
    (hx : x.labels.length ≤ 1) :
    (t.trainOn x : Outcome ε Trained) = { result := .error .insufficient, trainer := t } := by
  simp only [trainOn, hvalid, if_pos hx]

theorem trainOn_of_many {x : EventIndex} {m : Method} (hvalid : t.validate t.parameters = .ok ())
    (hx : 2 ≤ x.labels.length) (hm : t.method? = .ok m) :
    (t.trainOn x : Outcome ε Trained) = t.runMethod m x := by
  have hlabels : ¬ x.labels.length ≤ 1 := by omega
  simp only [trainOn, hvalid, if_neg hlabels, hm]

theorem trainOn_insufficient_iff {x : EventIndex} :
    (t.trainOn x : Outcome ε Trained).result = .error .insufficient ↔
      t.validate t.parameters = .ok () ∧ x.labels.length ≤ 1 := by
  constructor
  · intro h
    cases hvalid : t.validate t.parameters with
    | error e =>
      simp only [trainOn, hvalid] at h
      cases h
    | ok =>
      refine ⟨rfl, Nat.not_lt.1 fun hmany => ?_⟩
      obtain ⟨m, hm⟩ := exists_method? hvalid
      rw [trainOn_of_many hvalid hmany hm, result_runMethod] at h
      cases htrain : (m.train t.runs t.parameters x).1 with
      | error e =>
        rw [htrain] at h
        cases h
      | ok r =>
        rw [htrain] at h
        cases h
  · rintro ⟨hvalid, hfew⟩
    rw [trainOn_of_few hvalid hfew]

theorem method_trainOn_of_asks {x : EventIndex} (hvalid : t.validate t.parameters = .ok ())
    (hx : 2 ≤ x.labels.length) :
    (t.trainOn x : Outcome ε Trained).trainer.method = t.method?.toOption := by
  obtain ⟨m, hm⟩ := exists_method? hvalid
  rw [trainOn_of_many hvalid hx hm, method_runMethod, hm]
  rfl

theorem method_trainOn_of_not_asks {x : EventIndex}
    (h : ¬ (t.validate t.parameters = .ok () ∧ 2 ≤ x.labels.length)) :
    (t.trainOn x : Outcome ε Trained).trainer.method = t.method := by
  cases hvalid : t.validate t.parameters with
  | error e => simp only [trainOn, hvalid]
  | ok =>
    have hx : ¬ 2 ≤ x.labels.length := fun hx => h ⟨hvalid, hx⟩
    rw [trainOn_of_few hvalid (by omega)]

theorem method_trainOn_of_known {m : Method} (hm : t.method = some m) (x : EventIndex) :
    (t.trainOn x : Outcome ε Trained).trainer.method = some m := by
  by_cases h : t.validate t.parameters = .ok () ∧ 2 ≤ x.labels.length
  · rw [method_trainOn_of_asks h.1 h.2, toOption_method? hm]
  · rw [method_trainOn_of_not_asks h, hm]

def handed (events : Drain ε Event) : Drain (TrainingError ε) Event :=
  (HashStream.start events).drain.1.mapFailure .ofFault

def digest (t : Trainer) (events : Drain ε Event) : Trainer :=
  { t with
    report := t.report.insert "Training-Eventhash"
      (.string ((HashStream.start events).drain.2.hexSum?.getD [])) }

def clear (t : Trainer) : Trainer := { t with report := .empty }

theorem trainEvents_of_invalid {e : ParameterError} (h : t.validate t.parameters = .error e)
    (events : Drain ε Event) : t.trainEvents events = .refused e t events.items := by
  simp only [trainEvents, h]

theorem trainEvents_of_valid (h : t.validate t.parameters = .ok ()) (events : Drain ε Event) :
    t.trainEvents events = t.clear.trainHanded (.start events) := by
  simp only [trainEvents, h]
  rfl

theorem trainEvents_of_built_error {events : Drain ε Event} {e : TrainingError ε}
    (hvalid : t.validate t.parameters = .ok ())
    (h : (t.clear.buildIndex (handed events)).result = .error e) :
    (t.trainEvents events).result = .error e ∧
      (t.trainEvents events).trainer = (t.clear.buildIndex (handed events)).trainer := by
  rw [handed] at h
  rw [trainEvents_of_valid hvalid]
  constructor
  · simp only [trainHanded, h]
  · simp only [trainHanded, h]
    rfl

theorem trainEvents_of_built_ok {events : Drain ε Event} {i : Indexing}
    (hvalid : t.validate t.parameters = .ok ())
    (h : (t.clear.buildIndex (handed events)).result = .ok i) :
    (t.trainEvents events).result =
        (((t.clear.buildIndex (handed events)).trainer.digest events).trainOn i.index :
          Outcome ε Trained).result ∧
      (t.trainEvents events).trainer =
        (((t.clear.buildIndex (handed events)).trainer.digest events).trainOn i.index :
          Outcome ε Trained).trainer := by
  rw [handed] at h
  rw [trainEvents_of_valid hvalid]
  constructor
  · simp only [trainHanded, h]
    rfl
  · simp only [trainHanded, h]
    rfl

theorem method_trainEvents_of_valid (hvalid : t.validate t.parameters = .ok ())
    (events : Drain ε Event) : (t.trainEvents events).trainer.method = t.method?.toOption := by
  obtain ⟨m, hm⟩ := exists_method? hvalid
  have hclear : t.clear.method? = t.method? := rfl
  have hbuilt : (t.clear.buildIndex (handed events)).trainer.method = some m := by
    rw [method_buildIndex, hclear, hm]
    rfl
  rw [hm]
  cases hresult : (t.clear.buildIndex (handed events)).result with
  | error e => rw [(trainEvents_of_built_error hvalid hresult).2, hbuilt]; rfl
  | ok i =>
    have hdigest : ((t.clear.buildIndex (handed events)).trainer.digest events).method = some m := hbuilt
    rw [(trainEvents_of_built_ok hvalid hresult).2, method_trainOn_of_known hdigest]
    rfl

/-- What an operation does to the method: it stays, or it is looked up if it is asked for and not
known. -/
theorem method_after (t : Trainer) (op : Operation ε) :
    (t.Asks op → (t.after op).method = t.method?.toOption) ∧
      (¬ t.Asks op → (t.after op).method = t.method) := by
  cases op with
  | validate given => exact ⟨False.elim, fun _ => rfl⟩
  | set name value =>
    refine ⟨False.elim, fun _ => ?_⟩
    rw [after]
    split <;> rfl
  | buildIndex events => exact ⟨fun _ => method_buildIndex t _, fun h => absurd trivial h⟩
  | trainEvents events =>
    refine ⟨fun h => method_trainEvents_of_valid h events, fun h => ?_⟩
    cases hvalid : t.validate t.parameters with
    | ok => exact absurd hvalid h
    | error e =>
      simp only [after, trainEvents, hvalid]
      rfl
  | trainIndex x =>
    exact ⟨fun h => method_trainOn_of_asks (t := { t with report := .empty }) h.1 h.2,
      fun h => method_trainOn_of_not_asks (t := { t with report := .empty }) h⟩

def LooksUp (t : Trainer) (op : Operation ε) : Prop := t.Asks op ∧ t.parameters.Registered

def HasLookedUp (t : Trainer) (ops : List (Operation ε)) : Prop :=
  ∃ earlier op later, ops = earlier ++ op :: later ∧ (earlier.foldl after t).LooksUp op

theorem isSome_method_after (t : Trainer) (op : Operation ε) :
    (t.after op).method.isSome = true ↔ t.method.isSome = true ∨ t.LooksUp op := by
  obtain ⟨hasks, hkeeps⟩ := method_after t op
  by_cases h : t.Asks op
  · rw [hasks h, isSome_toOption_method?, LooksUp, and_iff_right h]
  · rw [hkeeps h, LooksUp, or_iff_left fun hlooks => h hlooks.1]

theorem isSome_method_foldl (t : Trainer) (ops : List (Operation ε)) :
    (ops.foldl after t).method.isSome = true ↔ t.method.isSome = true ∨ t.HasLookedUp ops := by
  induction ops generalizing t with
  | nil =>
    refine (or_iff_left ?_).symm
    rintro ⟨earlier, op, later, hops, -⟩
    simp at hops
  | cons op ops ih =>
    rw [List.foldl_cons, ih, isSome_method_after, or_assoc]
    apply or_congr_right
    -- The first operation has looked the method up, or one of those after it.
    constructor
    · rintro (h | ⟨earlier, op', later, rfl, h⟩)
      · exact ⟨[], op, ops, rfl, h⟩
      · exact ⟨op :: earlier, op', later, rfl, h⟩
    · rintro ⟨earlier, op', later, hops, h⟩
      cases earlier with
      | nil =>
        obtain ⟨rfl, rfl⟩ := List.cons.inj hops
        exact .inl h
      | cons first earlier =>
        obtain ⟨rfl, rfl⟩ := List.cons.inj hops
        exact .inr ⟨earlier, op', later, rfl, h⟩

/-- Whatever was done with a trainer, it refuses parameters for what they are: of a trainer type other
than the one for events, with an indexer that is unknown, with less than one iteration, with a cutoff
below zero, or with an algorithm without a method. The last is not looked at any more when an
operation has looked up the method of the trainer. The check changes nothing. -/
theorem validate_foldl_after (ps : Parameters) (ops : List (Operation ε)) {p : Parameters}
    (h : p.Comparable) :
    ((∃ e, (ops.foldl after (fresh ps)).validate p = .error (.configuration e)) ↔
        p.Unfit ∨ (¬ p.Registered ∧ ¬ (fresh ps).HasLookedUp ops)) ∧
      ((ops.foldl after (fresh ps)).validate p = .ok () ↔
        ¬ p.Unfit ∧ (p.Registered ∨ (fresh ps).HasLookedUp ops)) ∧
      (ops.foldl after (fresh ps)).after (.validate (some p) : Operation ε) =
        ops.foldl after (fresh ps) := by
  have hmethod := isSome_method_foldl (fresh ps) ops
  rw [or_iff_right (by simp [fresh])] at hmethod
  have hnone : (ops.foldl after (fresh ps)).method = none ↔ ¬ (fresh ps).HasLookedUp ops := by
    rw [← hmethod, Option.not_isSome_iff_eq_none]
  have hrefuses := (ops.foldl after (fresh ps)).refuses_validate h
  rw [Invalid, hnone, and_comm (a := ¬ HasLookedUp _ ops)] at hrefuses
  refine ⟨hrefuses.error_iff, ?_, rfl⟩
  rw [hrefuses.ok_iff]
  tauto

def twoEvents : List Event := [⟨"A", .plain ["x", "y"]⟩, ⟨"B", .plain ["x", "z"]⟩]

def unregistered : Parameters := { algorithm := .proper "NAIVEBAYES" }

theorem comparable_unregistered : unregistered.Comparable := by
  apply Parameters.Typed.comparable
  exact { Parameters.typed_default with algorithm := ⟨_, rfl⟩ }

theorem not_registered_unregistered : ¬ unregistered.Registered := by
  rintro ⟨name, m, hname, hm⟩
  obtain rfl := Held.proper.inj hname
  have hnone : Method.ofName? "NAIVEBAYES" = none := rfl
  rw [hnone] at hm
  cases hm

/-- A history in which the method is never looked up, because the parameters are not valid. -/
def refusedHistory : List (Operation Empty) :=
  [.set "iterations" (.int 0), .validate none, .trainEvents (.ofList twoEvents)]

theorem not_hasLookedUp_refusedHistory : ¬ (fresh {}).HasLookedUp refusedHistory := by
  intro h
  have hknown := (isSome_method_foldl (fresh {}) refusedHistory).2 (.inr h)
  exact Bool.false_ne_true hknown

theorem validate_foldl_after_refusedHistory : unregistered.Comparable ∧
    ∃ e, (refusedHistory.foldl after (fresh {})).validate unregistered =
      .error (.configuration e) := by
  refine ⟨comparable_unregistered, ?_⟩
  apply (validate_foldl_after {} refusedHistory comparable_unregistered).1.2
  exact .inr ⟨not_registered_unregistered, not_hasLookedUp_refusedHistory⟩

/-- Parameters that a trainer refuses at first are accepted once it has indexed events. -/
theorem validate_after_buildIndex : unregistered.Comparable ∧ ¬ unregistered.Registered ∧
    (∃ e, (fresh { cutoff := .proper (some 1) }).validate unregistered = .error (.configuration e)) ∧
    (([.buildIndex (.ofList twoEvents)] : List (Operation Empty)).foldl after
      (fresh { cutoff := .proper (some 1) })).validate unregistered = .ok () := by
  refine ⟨comparable_unregistered, not_registered_unregistered, ⟨_, rfl⟩, ?_⟩
  rfl

end Trainer

end MaxEnt
