import MaxEnt.Job.Basic
import MaxEnt.Proofs.Evaluation.Verdict
import MaxEnt.Proofs.Store.Attempt
import MaxEnt.Proofs.Training.Success

namespace MaxEnt.Job

variable {j : Job} {store : ModelStore} {time : Moment} {here : Path} {r : JobRun} {t : Trained}

def format? (j : Job) : Option CorpusFormat := j.format.proper?.bind CorpusFormat.ofName?

def training (j : Job) (files : FileTree) (format : CorpusFormat) :
    Except (TrainingError SourceError) Trained :=
  (Trainer.trainEvents { parameters := j.parameters } (source files j.data format).1).result

def Trains (j : Job) (files : FileTree) (t : Trained) : Prop :=
  ∃ format, j.format? = some format ∧ j.training files format = .ok t

theorem Trains.unique {files : FileTree} {t u : Trained} (ht : j.Trains files t)
    (hu : j.Trains files u) : t = u := by
  obtain ⟨format, hformat, htraining⟩ := ht
  obtain ⟨format', hformat', htraining'⟩ := hu
  rw [hformat, Option.some.injEq] at hformat'
  subst hformat'
  rw [htraining, Except.ok.injEq] at htraining'
  exact htraining'

theorem drawnFrom_of_training {files : FileTree} {format : CorpusFormat}
    (h : j.training files format = .ok t) :
    t.model.DrawnFrom (source files j.data format).1.items :=
  Trainer.drawnFrom_of_trained rfl h

theorem proper_of_training {files : FileTree} {format : CorpusFormat}
    (h : j.training files format = .ok t) : j.data.proper?.isNone = false := by
  cases hdata : j.data with
  | proper path => rfl
  | loose value =>
    have hne := (drawnFrom_of_training h).ne_nil
    rw [hdata] at hne
    exact absurd rfl hne

theorem exists_measure {files : FileTree} {format : CorpusFormat}
    (h : j.training files format = .ok t) :
    ∃ metrics, measure t.model (source files j.data format).1.items = .ok metrics := by
  have hne := (drawnFrom_of_training h).ne_nil
  rw [measure]
  cases hevaluate : (t.model.map (·.toFloat)).evaluate "train" (source files j.data format).1.items with
  | error e => exact absurd (Model.evaluate_eq_error_iff.1 hevaluate).1 hne
  | ok e => exact ⟨_, rfl⟩

def saving (j : Job) (time : Moment) (t : Trained) (parameters : Parameters)
    (metrics : Option Metrics) : Saving where
  model := ⟨t.model, t.report⟩
  name := j.name.shown
  version := j.version.shown
  time := time
  entries := withMetrics metrics (j.entries parameters)

/-- A run of a job that trains nothing fails and leaves the store alone. Any other leaves all to the
call that saves what it has trained. -/
inductive Ends (j : Job) (store : ModelStore) (time : Moment) (r : JobRun) : Prop where
  | failed (e : JobError) (untrained : ∀ t, ¬ j.Trains store.files t) (result : r.result = .error e)
    (unchanged : r.store = store)
  | saved (t : Trained) (parameters : Parameters) (metrics : Option Metrics)
    (trains : j.Trains store.files t) (trained : r.trained = some t)
    (result : r.result = ((j.saving time t parameters metrics).run store).1.mapError .save)
    (store_eq : r.store = ((j.saving time t parameters metrics).run store).2)

theorem ends_train {format : CorpusFormat} (hformat : j.format? = some format) (store : ModelStore)
    (time : Moment) : j.Ends store time (j.train store time.text format) := by
  cases htraining : j.training store.files format with
  | error e =>
    have hresult := htraining
    rw [training] at hresult
    simp only [train, hresult]
    refine .failed _ ?_ rfl rfl
    rintro t ⟨format', hformat', htrained⟩
    rw [hformat, Option.some.injEq] at hformat'
    subst hformat'
    rw [htraining] at htrained
    cases htrained
  | ok t =>
    obtain ⟨metrics, hmetrics⟩ := exists_measure htraining
    have hresult := htraining
    rw [training] at hresult
    simp only [train, hresult, hmetrics]
    split
    · exact .saved t _ _ ⟨format, hformat, htraining⟩ rfl rfl rfl
    · exact .saved t _ _ ⟨format, hformat, htraining⟩ rfl rfl rfl

theorem ends_run (j : Job) (store : ModelStore) (time : Moment) :
    j.Ends store time (j.run store time.text) := by
  unfold run
  split
  · rename_i hunknown
    refine .failed _ ?_ rfl rfl
    rintro t ⟨format, hformat, -⟩
    rw [format?, hunknown] at hformat
    cases hformat
  · rename_i format hformat
    simp only
    split
    · rename_i hpath
      refine .failed _ ?_ rfl rfl
      rintro t ⟨format', -, htraining⟩
      rw [proper_of_training htraining, Bool.and_false] at hpath
      cases hpath
    · exact ends_train hformat store time

section Storing

open FileTree ModelStore

/-- What a job gives that has stored what it trained: the path, under which the model is read back
with its labels and, under every name, its outcomes and parameters, bit for bit. -/
structure Stores (j : Job) (store : ModelStore) (time : Moment) (r : JobRun) (t : Trained) : Prop where
  trains : j.Trains store.files t
  trained : r.trained = some t
  result : r.result =
    .ok (store.folder.child (modelName j.name.shown j.version.shown time.text))
  load : ∃ n, Model.load r.store.files
      (store.folder.child (modelName j.name.shown j.version.shown time.text)) = .ok n ∧
    n.labels = t.model.labels ∧ ∀ name, n.predicates.get? name = t.model.predicates.get? name

theorem stores_or_fails (hname : PlainName j.name.shown) (hversion : PlainName j.version.shown)
    (hs : Located store.files store.folder here)
    (hroom : store.HasRoom j.name.shown j.version.shown time.text)
    (hr : j.Ends store time r) :
    (∃ t, j.Stores store time r t ∧ store.files.Gains r.store.files
      [here.child (modelName j.name.shown j.version.shown time.text),
        here.child (metadataName j.name.shown j.version.shown time.text)]) ∨
    (∃ e, r.result = .error e) ∧ store.files.Gains r.store.files [] := by
  cases hr with
  | failed e _ hresult hunchanged => exact .inr ⟨⟨e, hresult⟩, hunchanged ▸ .refl store.files⟩
  | saved t parameters metrics htrains htrained hresult hstore =>
    have hends := Saving.ends_run (c := j.saving time t parameters metrics) ⟨hname, hversion⟩ hs hroom
    -- What the call gives is kept apart, so that nothing evaluates it.
    generalize (j.saving time t parameters metrics).run store = run at hends hresult hstore
    cases hends with
    | refused e _ hgains => exact .inr ⟨⟨_, hresult⟩, hstore ▸ hgains⟩
    | complete hfits hgains hmodel =>
      refine .inl ⟨t, ⟨htrains, htrained, hresult, ?_⟩, hstore ▸ hgains⟩
      obtain ⟨format, -, htraining⟩ := htrains
      obtain ⟨n, hrun, hn⟩ := hfits.run_bytes (drawnFrom_of_training htraining).unpaired []
      rw [List.append_nil] at hrun
      have hread := read_child (hs.of_keepsFolders hgains.keepsFolders) hroom.admits_model hmodel
      have hcompressed := (j.saving time t parameters metrics).isCompressed_modelFile store.folder
      have hplain := (j.saving time t parameters metrics).isPlainText_modelFile store.folder
      rw [hstore]
      exact ⟨n, Model.load_eq_ok hread hcompressed hplain hrun, hn⟩

/-- Where there is room for its files, a job gives a path exactly if it trains a model that fits. -/
theorem exists_result_iff (hname : PlainName j.name.shown) (hversion : PlainName j.version.shown)
    (hs : Located store.files store.folder here)
    (hroom : store.HasRoom j.name.shown j.version.shown time.text) :
    (∃ p, (j.run store time.text).result = .ok p) ↔
      ∃ t, j.Trains store.files t ∧ t.model.FitsBinary := by
  have hends := ends_run j store time
  generalize j.run store time.text = r at hends ⊢
  cases hends with
  | failed e huntrained hresult =>
    rw [hresult]
    exact iff_of_false nofun fun ⟨t, htrains, _⟩ => huntrained t htrains
  | saved t parameters metrics htrains _ hresult =>
    have hends := Saving.ends_run (c := j.saving time t parameters metrics) ⟨hname, hversion⟩ hs hroom
    generalize (j.saving time t parameters metrics).run store = run at hends hresult
    cases hends with
    | refused e hunfit =>
      rw [hresult]
      refine iff_of_false nofun ?_
      rintro ⟨u, hu, hfits⟩
      exact hunfit (hu.unique htrains ▸ hfits)
    | complete hfits =>
      rw [hresult]
      exact iff_of_true ⟨_, rfl⟩ ⟨t, htrains, hfits⟩

end Storing

end MaxEnt.Job
