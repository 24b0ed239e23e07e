import MaxEnt.Proofs.Training.Success

namespace MaxEnt

namespace Method

def scalingWith (own : Parameters) : Method :=
  { scaling with train := fun runs _ x => scaling.train runs own x }

/-- The method of a trainer that was given scaling with these parameters or, where it was given no
method, the one that it looks up. -/
def ofGiven (given : Option Parameters) : Method := (given.map scalingWith).getD scaling

variable {given : Option Parameters}

theorem train_ofGiven (runs : Nat) (ps : Parameters) (x : EventIndex) :
    (ofGiven given).train runs ps x = scaling.train 0 (given.getD ps) x := by
  cases given <;> rfl

end Method

namespace Trainer

variable {ε : Type} {given : Option Parameters} {t u : Trainer}

def Follows (given : Option Parameters) (t : Trainer) : Prop :=
  t.method = given.map .scalingWith ∨ t.method = some (.ofGiven given)

theorem Follows.method? (h : t.Follows given) {m : Method} (hm : t.method? = .ok m) :
    m = .ofGiven given := by
  have hknown : t.method = some (.ofGiven given) → m = .ofGiven given := by
    intro hmethod
    rw [Trainer.method?, hmethod] at hm
    exact (Except.ok.inj hm).symm
  rcases h with h | h
  · cases given with
    | some own => exact hknown h
    | none =>
      rw [Option.map_none] at h
      rw [Trainer.method?, h] at hm
      exact eq_scaling_of_methodOf hm
  · exact hknown h

theorem Follows.after (h : t.Follows given) (op : Operation ε) : (t.after op).Follows given := by
  obtain ⟨hasks, hkeeps⟩ := method_after t op
  by_cases ha : t.Asks op
  · cases hm : t.method? with
    | error e =>
      rw [hm] at hasks
      left
      have hnone := method_eq_none hm
      rcases h with h | h
      · rw [hasks ha, ← h, hnone]
        rfl
      · rw [hnone] at h
        cases h
    | ok m =>
      rw [hm] at hasks
      right
      rw [hasks ha, h.method? hm]
      rfl
  · rcases h with h | h
    · exact .inl ((hkeeps ha).trans h)
    · exact .inr ((hkeeps ha).trans h)

def trained? (t : Trainer) : Operation ε → Option Trained
  | .validate _ => none
  | .set _ _ => none
  | .buildIndex _ => none
  | .trainEvents events => (t.trainEvents events).result.toOption
  | .trainIndex x => (t.trainIndex x : Outcome ε Trained).result.toOption

theorem eq_ok_of_toOption {ε α : Type} {x : Except ε α} {a : α} (h : x.toOption = some a) :
    x = .ok a := by
  cases x with
  | error e => cases h
  | ok b => exact congrArg Except.ok (Option.some.inj h)

theorem report_addReport_congr (hparameters : t.parameters = u.parameters) (hreport : t.report = u.report)
    (m : Method) (report : Table Text Json) :
    (t.addReport m report).report = (u.addReport m report).report := by
  simp only [addReport, algorithmName, hparameters, hreport]

theorem parameters_prepare (h : t.parameters = u.parameters) (m : Method) :
    (t.prepare m).parameters = (u.prepare m).parameters := by
  simp only [prepare, h]

theorem indexer?_congr (h : t.parameters = u.parameters) : t.indexer? = u.indexer? := by
  simp only [indexer?, h]

/-- The model that is trained from events is the same whatever was done before, as long as the
parameters are. -/
theorem TrainsFrom.unique {events : List Event} {i j : Indexing} {r q : Trained}
    (hr : t.TrainsFrom events (.ofGiven given) i r) (hq : u.TrainsFrom events (.ofGiven given) j q)
    (h : t.parameters = u.parameters) : i = j ∧ r = q := by
  obtain ⟨indexer, cutoff, hindexer, hcutoff, hi⟩ := hr.index
  obtain ⟨indexer', cutoff', hindexer', hcutoff', hj⟩ := hq.index
  have hprepare := parameters_prepare h (.ofGiven given)
  rw [indexer?_congr hprepare, hindexer', Except.ok.injEq] at hindexer
  rw [hprepare, hcutoff', Option.some.injEq] at hcutoff
  subst hindexer hcutoff
  have hij : i = j := Except.ok.inj (hi.symm.trans hj)
  subst hij
  have htrain := hr.train
  rw [Method.train_ofGiven, hprepare, ← Method.train_ofGiven u.runs, hq.train] at htrain
  exact ⟨rfl, (Except.ok.inj htrain).symm⟩

theorem trained?_unique {op : Operation ε} {r q : Trained} (ht : t.Follows given)
    (hu : u.Follows given) (h : t.parameters = u.parameters) (hr : t.trained? op = some r)
    (hq : u.trained? op = some q) : r = q := by
  have heq : ∀ {r q : Trained}, r.model = q.model → r.report = q.report → r = q := by
    rintro ⟨_, _⟩ ⟨_, _⟩ rfl rfl
    rfl
  cases op with
  | validate given => cases hr
  | set name value => cases hr
  | buildIndex events => cases hr
  | trainEvents events =>
    obtain ⟨m, i, trained, -, hfrom, hmodel, hreport, -⟩ :=
      trainEvents_eq_ok (eq_ok_of_toOption hr)
    obtain ⟨m', j, trained', -, hfrom', hmodel', hreport', -⟩ :=
      trainEvents_eq_ok (eq_ok_of_toOption hq)
    obtain rfl := ht.method? hfrom.method
    obtain rfl := hu.method? hfrom'.method
    obtain ⟨rfl, rfl⟩ := hfrom.unique hfrom' h
    refine heq (hmodel.trans hmodel'.symm) ?_
    rw [hreport, hreport']
    apply report_addReport_congr
    · exact parameters_prepare h _
    · rfl
  | trainIndex x =>
    obtain ⟨m, trained, hm, htrain, hmodel, hreport, -⟩ :=
      trainIndex_eq_ok (eq_ok_of_toOption hr)
    obtain ⟨m', trained', hm', htrain', hmodel', hreport', -⟩ :=
      trainIndex_eq_ok (eq_ok_of_toOption hq)
    obtain rfl := ht.method? hm
    obtain rfl := hu.method? hm'
    rw [Method.train_ofGiven, h] at htrain
    rw [Method.train_ofGiven, htrain, Except.ok.injEq] at htrain'
    subst htrain'
    refine heq (hmodel.trans hmodel'.symm) ?_
    rw [hreport, hreport']
    apply report_addReport_congr
    · exact h
    · rfl

def reportKeys : Operation ε → List Text
  | .trainEvents _ => corpusKeys ++ trainedKeys
  | _ => trainedKeys

theorem keys_report {op : Operation ε} {r : Trained} (ht : t.Follows given)
    (hr : t.trained? op = some r) :
    r.report.keys = reportKeys op ∧ (t.after op).report = r.report := by
  cases op with
  | validate given => cases hr
  | set name value => cases hr
  | buildIndex events => cases hr
  | trainEvents events =>
    obtain ⟨m, i, trained, -, hfrom, -, hreport, hafter⟩ :=
      trainEvents_eq_ok (eq_ok_of_toOption hr)
    obtain rfl := ht.method? hfrom.method
    have htrain := hfrom.train
    rw [Method.train_ofGiven] at htrain
    obtain ⟨steps, likelihood, hscaling⟩ := (Method.scaledOf_train htrain).report
    refine ⟨?_, hafter⟩
    rw [hreport, hscaling, report_addReport]
    obtain ⟨_, _, -, -, hi⟩ := hfrom.index
    simp only [eventReport, Indexing.report_ofEvents hi, insert_digest, Table.insertAll_ofList]
    have hkeys : ∀ tokens outcomes predicates algorithm,
        ((Indexing.counts tokens outcomes predicates ++ [digestEntry events.items]) ++
          trainedReport steps likelihood algorithm).map Prod.fst = corpusKeys ++ trainedKeys := by
      intro tokens outcomes predicates algorithm
      rw [List.map_append, keys_counts, keys_trainedReport]
    rw [Table.keys_ofList]
    · exact hkeys _ _ _ _
    · rw [hkeys]
      decide
  | trainIndex x =>
    obtain ⟨m, trained, hm, htrain, -, hreport, hafter⟩ :=
      trainIndex_eq_ok (eq_ok_of_toOption hr)
    obtain rfl := ht.method? hm
    rw [Method.train_ofGiven] at htrain
    obtain ⟨steps, likelihood, hscaling⟩ := (Method.scaledOf_train htrain).report
    refine ⟨?_, hafter⟩
    rw [hreport, hscaling, report_addReport]
    exact Table.keys_ofList (by rw [keys_trainedReport]; decide)

end Trainer

/-- A trainer with every report there is, at a place of its own: the one that the trainer writes to,
those that it has written to before, and one for each model that it gave. -/
structure Session where
  parameters : Parameters
  method : Option Method
  runs : Nat
  reports : List (Table Text Json)
  own : Nat
  models : List (Model Binary64 × Nat)

namespace Session

variable {ε : Type} {given : Option Parameters} {s : Session}

def start (given : Option Parameters) (ps : Parameters) : Session :=
  ⟨ps, given.map .scalingWith, 0, [.empty], 0, []⟩

def reportAt (s : Session) (place : Nat) : Option (Table Text Json) := s.reports[place]?

def trainer (s : Session) : Trainer where
  parameters := s.parameters
  method := s.method
  report := (s.reportAt s.own).getD .empty
  runs := s.runs

/-- The trainer takes a new report. Whoever has the one before keeps that. -/
def renew (s : Session) : Session :=
  { s with reports := s.reports ++ [.empty], own := s.reports.length }

def write (s : Session) (t : Trainer) : Session :=
  { s with
    parameters := t.parameters
    method := t.method
    runs := t.runs
    reports := s.reports.set s.own t.report }

def give (s : Session) : Option Trained → Session
  | none => s
  | some r =>
    { s with
      reports := s.reports ++ [r.report]
      models := s.models ++ [(r.model, s.reports.length)] }

def renews (t : Trainer) : Operation ε → Bool
  | .trainEvents _ => (t.validate t.parameters).toBool
  | .trainIndex _ => true
  | _ => false

/-- An operation: the trainer takes a new report if it has to, changes, and gives the model that it
trained, if it did. -/
def perform (s : Session) (op : Operation ε) : Session :=
  ((if renews s.trainer op then s.renew else s).write (s.trainer.after op)).give
    (s.trainer.trained? op)

def Sound (s : Session) : Prop := s.own < s.reports.length

/-- A place that the trainer does not write to. -/
def Settled (s : Session) (place : Nat) : Prop := place < s.reports.length ∧ place ≠ s.own

theorem sound_start (given : Option Parameters) (ps : Parameters) : (start given ps).Sound :=
  Nat.zero_lt_one

theorem Sound.renew (s : Session) : s.renew.Sound := by
  simp [Sound, Session.renew]

theorem Sound.write (h : s.Sound) (t : Trainer) : (s.write t).Sound := by
  simpa [Sound, Session.write] using h

theorem Sound.give (h : s.Sound) (r : Option Trained) : (s.give r).Sound := by
  cases r with
  | none => exact h
  | some r => exact Nat.lt_of_lt_of_le h (by simp [Session.give])

theorem Sound.perform (h : s.Sound) (op : Operation ε) : (s.perform op).Sound := by
  apply Sound.give
  apply Sound.write
  split
  · exact Sound.renew s
  · exact h

theorem trainer_write (h : s.Sound) (t : Trainer) : (s.write t).trainer = t := by
  have hown : (s.write t).reportAt s.own = some t.report := List.getElem?_set_self h
  have htrainer : (s.write t).trainer =
      ⟨t.parameters, t.method, ((s.write t).reportAt s.own).getD .empty, t.runs⟩ := rfl
  rw [htrainer, hown]
  rfl

theorem trainer_give (h : s.Sound) (r : Option Trained) : (s.give r).trainer = s.trainer := by
  cases r with
  | none => rfl
  | some r =>
    have hown : (s.reports ++ [r.report])[s.own]? = s.reports[s.own]? := List.getElem?_append_left h
    simp only [trainer, reportAt, give, hown]

theorem trainer_perform (h : s.Sound) (op : Operation ε) :
    (s.perform op).trainer = s.trainer.after op := by
  have hsound : (if renews s.trainer op then s.renew else s).Sound := by
    split
    · exact Sound.renew s
    · exact h
  rw [perform, trainer_give (hsound.write _), trainer_write hsound]

structure Keeps (s s' : Session) (place : Nat) : Prop where
  settled : s'.Settled place
  report : s'.reportAt place = s.reportAt place

theorem Settled.renew {place : Nat} (h : s.Settled place) : Keeps s s.renew place where
  settled := ⟨Nat.lt_of_lt_of_le h.1 (by simp [Session.renew]), Nat.ne_of_lt h.1⟩
  report := List.getElem?_append_left h.1

theorem Settled.write {place : Nat} (h : s.Settled place) (t : Trainer) : Keeps s (s.write t) place where
  settled := ⟨by simpa [Session.write] using h.1, h.2⟩
  report := List.getElem?_set_ne (Ne.symm h.2)

theorem Settled.give {place : Nat} (h : s.Settled place) (r : Option Trained) :
    Keeps s (s.give r) place := by
  cases r with
  | none => exact ⟨h, rfl⟩
  | some r =>
    exact ⟨⟨Nat.lt_of_lt_of_le h.1 (by simp [Session.give]), h.2⟩, List.getElem?_append_left h.1⟩

theorem Settled.perform {place : Nat} (h : s.Settled place) (op : Operation ε) :
    Keeps s (s.perform op) place := by
  have hrenew : Keeps s (if renews s.trainer op then s.renew else s) place := by
    split
    · exact h.renew
    · exact ⟨h, rfl⟩
  have hwrite := hrenew.settled.write (s.trainer.after op)
  have hgive := hwrite.settled.give (s.trainer.trained? op)
  exact ⟨hgive.settled, hgive.report.trans (hwrite.report.trans hrenew.report)⟩

theorem Settled.foldl {place : Nat} (h : s.Settled place) (ops : List (Operation ε)) :
    Keeps s (ops.foldl Session.perform s) place := by
  induction ops generalizing s with
  | nil => exact ⟨h, rfl⟩
  | cons op ops ih =>
    have hop := h.perform op
    have hops := ih hop.settled
    exact ⟨hops.settled, hops.report.trans hop.report⟩

theorem sound_foldl (h : s.Sound) (ops : List (Operation ε)) : (ops.foldl perform s).Sound := by
  induction ops generalizing s with
  | nil => exact h
  | cons op ops ih => exact ih (h.perform op)

theorem trainer_foldl (h : s.Sound) (ops : List (Operation ε)) :
    (ops.foldl perform s).trainer = ops.foldl Trainer.after s.trainer := by
  induction ops generalizing s with
  | nil => rfl
  | cons op ops ih =>
    rw [List.foldl_cons, List.foldl_cons, ih (h.perform op), trainer_perform h op]

theorem follows_start (given : Option Parameters) (ps : Parameters) :
    (start given ps).trainer.Follows given := .inl rfl

theorem follows_foldl (given : Option Parameters) (ps : Parameters) (ops : List (Operation ε)) :
    (ops.foldl perform (start given ps)).trainer.Follows given := by
  rw [trainer_foldl (sound_start given ps)]
  have hfollows : ∀ t : Trainer, t.Follows given → (ops.foldl Trainer.after t).Follows given := by
    induction ops with
    | nil => exact fun _ h => h
    | cons op ops ih => exact fun t h => ih _ (h.after op)
  exact hfollows _ (follows_start given ps)

theorem perform_of_trained {op : Operation ε} {r : Trained} (h : s.Sound)
    (hr : s.trainer.trained? op = some r) :
    ∃ place, (s.perform op).models = s.models ++ [(r.model, place)] ∧
      (s.perform op).Settled place ∧ (s.perform op).reportAt place = some r.report := by
  let before := (if renews s.trainer op then s.renew else s).write (s.trainer.after op)
  have hperform : s.perform op = before.give (some r) := by rw [← hr]; rfl
  have hmodels : before.models = s.models := by
    simp only [before]
    split <;> rfl
  have hsound : before.Sound := by
    apply Sound.write
    split
    · exact Sound.renew s
    · exact h
  refine ⟨before.reports.length, ?_, ?_, ?_⟩
  · rw [hperform, ← hmodels]
    rfl
  -- The report of the model is the last there is, and the trainer writes to one before it.
  · rw [hperform]
    exact ⟨by simp [give], Nat.ne_of_gt hsound⟩
  · rw [hperform]
    exact List.getElem?_concat_length

/-- Reports do not leak. Whatever was done before with a trainer whose method is scaling: a model that
it gives has, at a place of its own, the report that the trainer has then; the keys are those of what
was trained from; the model and the report are the same after any other history that left the same
parameters; and nothing that is done later changes the report. -/
theorem report_of_trained (given : Option Parameters) (ps : Parameters) (earlier : List (Operation ε))
    {op : Operation ε} {r : Trained}
    (hr : (earlier.foldl perform (start given ps)).trainer.trained? op = some r) :
    ∃ place, ((earlier ++ [op]).foldl perform (start given ps)).models =
          (earlier.foldl perform (start given ps)).models ++ [(r.model, place)] ∧
      ((earlier ++ [op]).foldl perform (start given ps)).reportAt place = some r.report ∧
      ((earlier ++ [op]).foldl perform (start given ps)).trainer.report = r.report ∧
      r.report.keys = Trainer.reportKeys op ∧
      (∀ (ps' : Parameters) (earlier' : List (Operation ε)) (r' : Trained),
        (earlier'.foldl perform (start given ps')).parameters =
          (earlier.foldl perform (start given ps)).parameters →
        (earlier'.foldl perform (start given ps')).trainer.trained? op = some r' → r' = r) ∧
      ∀ later : List (Operation ε),
        ((earlier ++ op :: later).foldl perform (start given ps)).reportAt place = some r.report := by
  have hsound : (earlier.foldl perform (start given ps)).Sound := sound_foldl (sound_start given ps) _
  have hfollows := follows_foldl given ps earlier
  obtain ⟨hkeys, hreport⟩ := Trainer.keys_report hfollows hr
  obtain ⟨place, hmodels, hsettled, hplace⟩ := perform_of_trained hsound hr
  refine ⟨place, ?_, ?_, ?_, hkeys, ?_, ?_⟩
  · rw [List.foldl_concat]
    exact hmodels
  · rw [List.foldl_concat]
    exact hplace
  · rw [List.foldl_concat, trainer_perform hsound op]
    exact hreport
  · intro ps' earlier' r' hparameters hr'
    exact Trainer.trained?_unique (follows_foldl given ps' earlier') hfollows hparameters hr' hr
  · intro later
    rw [List.foldl_append, List.foldl_cons]
    exact (hsettled.foldl later).report.trans hplace

def twoRows : EventIndex where
  contexts := [[0], [1]]
  values := none
  outcomes := [0, 1]
  counts := [1, 1]
  predicates := ["x", "y"]
  occurrences := [1, 1]
  labels := ["A", "B"]

theorem exists_trained_twoRows :
    ∃ r, (start none {}).trainer.trained? (.trainIndex twoRows : Operation Empty) = some r := by
  obtain ⟨r, hr⟩ : ∃ r, (Method.scaling.train 0 {} twoRows).1 = .ok r :=
    Method.exists_train Parameters.typed_default (by decide) (by decide) (by decide)
  have hresult : ((start none {}).trainer.trainIndex twoRows : Outcome Empty Trained).result =
      ((start none {}).trainer.runMethod .scaling twoRows : Outcome Empty Trained).result :=
    congrArg Outcome.result (Trainer.trainOn_of_many rfl (by decide) rfl)
  have htrain : (Method.scaling.train (start none {}).trainer.runs (start none {}).trainer.parameters
      twoRows).1 = .ok r := hr
  rw [Trainer.trained?, hresult, Trainer.result_runMethod, htrain]
  exact ⟨_, rfl⟩

def busyHistory : List (Operation Empty) :=
  [.trainIndex twoRows, .buildIndex (.ofList Trainer.twoEvents), .trainIndex twoRows]

theorem report_of_trained_twoRows : ∃ r place,
    (start none {}).trainer.trained? (.trainIndex twoRows : Operation Empty) = some r ∧
      r.report.keys = Trainer.trainedKeys ∧
      (busyHistory.foldl perform (start none {})).reportAt place = some r.report := by
  obtain ⟨r, hr⟩ := exists_trained_twoRows
  obtain ⟨place, -, -, -, hkeys, -, hlater⟩ := report_of_trained none {} [] hr
  exact ⟨r, place, hr, hkeys, hlater busyHistory.tail⟩

end Session

end MaxEnt
