import MaxEnt.Proofs.Codec.RoundTrip
import MaxEnt.Proofs.Event.File
import MaxEnt.Proofs.Training.Reports

namespace MaxEnt

namespace Model

variable {m : Model Binary64} {events : List Event}

/-- The labels and the names of the model are texts of the events. No predicate lists more outcomes
than there are labels. -/
structure DrawnFrom (m : Model Binary64) (events : List Event) : Prop where
  encodable : ∀ e ∈ events, e.Encodable
  labels : ∀ label ∈ m.labels, ∃ e ∈ events, e.outcome = label
  names : ∀ name ∈ m.predicates.keys, ∃ e ∈ events, name ∈ e.context
  outcomes : ∀ p ∈ m.predicates.values, p.outcomes.length ≤ m.labels.length

namespace DrawnFrom

theorem unpaired (h : m.DrawnFrom events) : m.Unpaired := by
  constructor
  · intro label hlabel
    obtain ⟨e, he, rfl⟩ := h.labels label hlabel
    exact (h.encodable e he).unpaired.1
  · intro name hname
    obtain ⟨e, he, hcontext⟩ := h.names name hname
    exact (h.encodable e he).unpaired.2 name hcontext

theorem ne_nil (h : m.DrawnFrom events) : events ≠ [] := by
  obtain ⟨label, hlabel⟩ := List.exists_mem_of_length_pos (Nat.lt_of_lt_of_le Nat.zero_lt_two m.two_le)
  obtain ⟨e, he, -⟩ := h.labels label hlabel
  exact List.ne_nil_of_mem he

/-- Events of ten thousand outcomes at most make a model that fits if their texts do. -/
theorem fitsBinary (h : m.DrawnFrom events) (htexts : ∀ e ∈ events, e.EveryText Binary.FitsString)
    (houtcomes : (events.map Event.outcome).dedup.length ≤ 10 ^ 4)
    (hnames : (events.flatMap Event.context).dedup.length < 2 ^ 31) : m.FitsBinary := by
  refine .of_counts ?_ ?_ h.outcomes ?_ ?_
  · intro label hlabel
    obtain ⟨e, he, rfl⟩ := h.labels label hlabel
    exact (htexts e he).1
  · intro name hname
    obtain ⟨e, he, hcontext⟩ := h.names name hname
    exact (htexts e he).2 name hcontext
  · have hsubset : m.labels ⊆ (events.map Event.outcome).dedup := by
      intro label hlabel
      rw [List.mem_dedup, List.mem_map]
      exact h.labels label hlabel
    exact (m.labels_nodup.subperm hsubset).length_le.trans houtcomes
  · have hsubset : m.predicates.keys ⊆ (events.flatMap Event.context).dedup := by
      intro name hname
      rw [List.mem_dedup, List.mem_flatMap]
      exact h.names name hname
    have hkeys := (m.predicates.nodup.subperm hsubset).length_le
    rw [List.length_map] at hkeys
    exact hkeys.trans_lt hnames

end DrawnFrom

end Model

namespace Trainer

variable {ε : Type} {t : Trainer} {m : Method} {x : EventIndex} {r : Trained}

theorem runMethod_eq_ok (h : (t.runMethod m x : Outcome ε Trained).result = .ok r) :
    ∃ trained, (m.train t.runs t.parameters x).1 = .ok trained ∧ r.model = trained.model ∧
      r.report = (t.addReport m trained.report).report ∧
      (t.runMethod m x : Outcome ε Trained).trainer.report = r.report := by
  rw [runMethod] at h ⊢
  split at h
  · cases h
  · rename_i trained warnings hm
    rw [hm]
    simp only at h ⊢
    obtain rfl := Except.ok.inj h
    exact ⟨trained, rfl, rfl, rfl, rfl⟩

theorem trainOn_eq_ok (h : (t.trainOn x : Outcome ε Trained).result = .ok r) :
    t.validate t.parameters = .ok () ∧ 2 ≤ x.labels.length ∧ ∃ m trained, t.method? = .ok m ∧
      (m.train t.runs t.parameters x).1 = .ok trained ∧ r.model = trained.model ∧
      r.report = (t.addReport m trained.report).report ∧
      (t.trainOn x : Outcome ε Trained).trainer.report = r.report := by
  cases hvalid : t.validate t.parameters with
  | error e =>
    simp only [trainOn, hvalid] at h
    cases h
  | ok =>
    by_cases hfew : x.labels.length ≤ 1
    · rw [trainOn_of_few hvalid hfew] at h
      cases h
    · obtain ⟨m, hm⟩ := exists_method? hvalid
      have hmany : 2 ≤ x.labels.length := by omega
      rw [trainOn_of_many hvalid hmany hm] at h ⊢
      exact ⟨rfl, hmany, m, (runMethod_eq_ok h).imp fun _ hr => ⟨hm, hr⟩⟩

structure Builds (t : Trainer) (events : Drain (TrainingError ε) Event) (m : Method) (i : Indexing) :
    Prop where
  method : t.method? = .ok m
  failure : events.failure = none
  index : ∃ indexer cutoff, (t.prepare m).indexer? = .ok indexer ∧
    Indexing.cutoffFor events.items (t.prepare m).parameters.cutoff.json = some cutoff ∧
    Indexing.ofEvents ⟨indexer, cutoff, m.sorts⟩ events.items = .ok i
  trainer : (t.buildIndex events).trainer =
    { t.prepare m with report := t.report.union (i.report.map .string) }

theorem buildIndex_eq_ok {events : Drain (TrainingError ε) Event} {i : Indexing}
    (h : (t.buildIndex events).result = .ok i) : ∃ m, t.Builds events m i := by
  cases hm : t.method? with
  | error e =>
    simp only [buildIndex, hm] at h
    cases h
  | ok m =>
    cases hindexer : (t.prepare m).indexer? with
    | error e =>
      simp only [buildIndex, hm, hindexer] at h
      cases h
    | ok indexer =>
      have hbuild : t.buildIndex events = (t.prepare m).index indexer m.sorts events := by
        simp only [buildIndex, hm, hindexer]
      rw [hbuild, index] at h
      split at h
      · cases h
      · cases h
      · rename_i cutoff hfailure hcutoff
        cases hi : Indexing.ofEvents ⟨indexer, cutoff, m.sorts⟩ events.items with
        | error n =>
          simp only [hi] at h
          cases h
        | ok i' =>
          simp only [hi] at h
          obtain rfl := Except.ok.inj h
          refine ⟨m, hm, hfailure, ⟨indexer, cutoff, hindexer, hcutoff, hi⟩, ?_⟩
          rw [hbuild, index, hfailure]
          simp only [hcutoff, hi]
          rfl

theorem failure_eq_none_of_handed {events : Drain ε Event} (h : (handed events).failure = none) :
    events.failure = none ∧ ∀ e ∈ events.items, e.Encodable := by
  have hdrain : (HashStream.start events).drain.1.failure = none := by
    rw [handed, Drain.mapFailure, Option.map_eq_none_iff] at h
    exact h
  have hencodable := HashStream.encodable_of_drain hdrain
  rw [HashStream.drain_of_encodable hencodable, Drain.mapFailure, Option.map_eq_none_iff] at hdrain
  exact ⟨hdrain, hencodable⟩

/-- How a model comes from events: all of them can be had and digested, the trainer indexes them, and
the method trains from the index. -/
structure TrainsFrom (t : Trainer) (events : List Event) (m : Method) (i : Indexing) (trained : Trained) :
    Prop where
  encodable : ∀ e ∈ events, e.Encodable
  method : t.method? = .ok m
  index : ∃ indexer cutoff, (t.prepare m).indexer? = .ok indexer ∧
    Indexing.cutoffFor events (t.prepare m).parameters.cutoff.json = some cutoff ∧
    Indexing.ofEvents ⟨indexer, cutoff, m.sorts⟩ events = .ok i
  train : (m.train t.runs (t.prepare m).parameters i.index).1 = .ok trained

def eventReport (i : Indexing) (events : List Event) : Table Text Json :=
  (i.report.map .string).insert "Training-Eventhash" (.string (Event.hexSum events))

theorem trainEvents_eq_ok {events : Drain ε Event} (h : (t.trainEvents events).result = .ok r) :
    ∃ m i trained, events.failure = none ∧ t.TrainsFrom events.items m i trained ∧
      r.model = trained.model ∧
      r.report = ({ t.prepare m with report := eventReport i events.items }.addReport m
        trained.report).report ∧
      (t.trainEvents events).trainer.report = r.report := by
  cases hvalid : t.validate t.parameters with
  | error e =>
    rw [trainEvents_of_invalid hvalid] at h
    cases h
  | ok =>
    cases hbuilt : (t.clear.buildIndex (handed events)).result with
    | error e =>
      rw [(trainEvents_of_built_error hvalid hbuilt).1] at h
      cases h
    | ok i =>
      obtain ⟨hresult, htrainer⟩ := trainEvents_of_built_ok hvalid hbuilt
      rw [hresult] at h
      obtain ⟨m, hbuilds⟩ := buildIndex_eq_ok hbuilt
      obtain ⟨hfailure, hencodable⟩ := failure_eq_none_of_handed hbuilds.failure
      obtain ⟨items, failure⟩ := events
      obtain rfl : failure = none := hfailure
      have hhanded : handed (⟨items, none⟩ : Drain ε Event) = .ofList items := handed_ofList hencodable
      have hdigest : ((t.clear.buildIndex (handed (⟨items, none⟩ : Drain ε Event))).trainer.digest
          (⟨items, none⟩ : Drain ε Event)) = { t.prepare m with report := eventReport i items } := by
        have hlist : (⟨items, none⟩ : Drain ε Event) = .ofList items := rfl
        have hclear : t.clear.report = .empty := rfl
        rw [hbuilds.trainer, hlist, digest_ofList _ hencodable, hclear, Table.empty_union]
        rfl
      rw [hdigest] at h htrainer
      obtain ⟨-, -, m', trained, hm', htrain, hmodel, hreport, hafter⟩ := trainOn_eq_ok h
      obtain rfl : m = m' := Except.ok.inj hm'
      rw [htrainer]
      have hindex := hbuilds.index
      rw [hhanded] at hindex
      exact ⟨m, i, trained, rfl, ⟨hencodable, hbuilds.method, hindex, htrain⟩, hmodel, hreport, hafter⟩

theorem drawnFrom_of_trained {events : Drain ε Event} (hmethod : t.method = none)
    (h : (t.trainEvents events).result = .ok r) : r.model.DrawnFrom events.items := by
  obtain ⟨m, i, trained, -, htrains, hmodel, -⟩ := trainEvents_eq_ok h
  obtain ⟨indexer, cutoff, -, -, hi⟩ := htrains.index
  obtain ⟨hlabels, hpredicates⟩ := Indexing.texts_of_ofEvents htrains.encodable hi
  have hm := htrains.method
  rw [method?, hmethod] at hm
  obtain rfl : m = .scaling := eq_scaling_of_methodOf hm
  have hscaled := Method.scaledOf_train htrains.train
  rw [hmodel]
  refine ⟨htrains.encodable, ?_, ?_, ?_⟩
  · intro label hlabel
    rw [hscaled.labels] at hlabel
    exact hlabels label hlabel
  · intro name hname
    exact hpredicates name (hscaled.predicates name hname)
  · intro p hp
    rw [hscaled.labels]
    exact hscaled.outcomes p hp

theorem trainIndex_eq_ok (h : (t.trainIndex x : Outcome ε Trained).result = .ok r) :
    ∃ m trained, t.method? = .ok m ∧ (m.train t.runs t.parameters x).1 = .ok trained ∧
      r.model = trained.model ∧ r.report = (t.clear.addReport m trained.report).report ∧
      (t.trainIndex x : Outcome ε Trained).trainer.report = r.report :=
  (trainOn_eq_ok (t := t.clear) h).2.2

end Trainer

end MaxEnt
