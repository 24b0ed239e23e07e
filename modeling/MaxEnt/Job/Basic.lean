import MaxEnt.Corpus
import MaxEnt.Job.Metrics
import MaxEnt.Settings
import MaxEnt.Store.Basic
import MaxEnt.Training.Trainer

namespace MaxEnt

inductive SourceError where
  | file (e : FileError)
  | corpus (e : CorpusError)
  | noPath
  deriving DecidableEq

inductive JobError where
  | format (shown : Text)
  | noPath
  | training (e : TrainingError SourceError)
  | evaluation (e : EvaluationError)
  | save (e : ModelStore.SaveError)

structure Job where
  parameters : Parameters
  data : Held Text
  format : Held Text
  evaluates : Bool
  name : Held Text
  version : Held Text

structure JobRun where
  result : Except JobError Path
  store : ModelStore
  warnings : List Text
  trained : Option Trained := none
  metrics : Option Metrics := none

namespace Job

def parametersOf (s : Settings) : Except MappingError Parameters :=
  Parameters.ofMapping (.ofList
    [(Parameter.algorithm.name, s.algorithm.json), (Parameter.iterations.name, s.iterations.json),
      (Parameter.cutoff.name, s.cutoff.json), (Parameter.indexer.name, s.indexer.json)])

def ofSettings (s : Settings) (parameters : Parameters) : Job where
  parameters := parameters
  data := .ofJson s.dataPath.json
  format := s.dataFormat
  evaluates := s.evaluates.json.affirms
  name := s.modelName
  version := s.modelVersion

/-- The job with this name and version of the model. Where one is empty, that of the job stays. -/
def called (j : Job) (name version : Text) : Job :=
  { j with
    name := if name.isEmpty then j.name else .proper name
    version := if version.isEmpty then j.version else .proper version }

/-- Reads from what should be a path and is none. A number is taken for an open file, but none is
open. -/
def sourceless (value : Json) : SourceError :=
  if ((Number.ofJson? value).bind Number.toInt?).isSome then .file .missing else .noPath

def source (files : FileTree) (data : Held Text) (format : CorpusFormat) :
    Drain SourceError Event × List Text :=
  match data with
  | .loose value => (⟨[], some (sourceless value)⟩, [])
  | .proper path =>
    match files.read (.ofText path) with
    | .error e => (⟨[], some (.file e)⟩, [])
    | .ok file =>
      let c := Corpus.read format file.bytes
      (c.events.mapFailure .corpus, c.warnings)

def measure (m : Model Binary64) (events : List Event) : Except EvaluationError Metrics := do
  let e ← (m.map (·.toFloat)).evaluate "train" events
  return ⟨e, .ofLabels (events.map Event.outcome)⟩

def entries (j : Job) (parameters : Parameters) : Table Text Json :=
  .ofList [("name", j.name.json), ("version", j.version.json),
    ("training_data", .string j.data.shown), ("training_data_format", j.format.json),
    ("parameters", .ofTable (parameters.properties.map .string))]

def withMetrics (metrics : Option Metrics) (entries : Table Text Json) : Table Text Json :=
  match metrics with
  | some m => entries.insert "metrics" m.json
  | none => entries

def save (j : Job) (store : ModelStore) (time : Text) (t : Trained) (parameters : Parameters)
    (warnings : List Text) (metrics : Option Metrics) : JobRun :=
  let (r, store) := store.save ⟨t.model, t.report⟩ j.name.shown j.version.shown time
    (withMetrics metrics (j.entries parameters))
  { result := r.mapError .save, store, warnings, trained := some t, metrics }

/-- Reads the events, trains a model from them, evaluates it if asked to, which takes two more
readings, and saves it. -/
def train (j : Job) (store : ModelStore) (time : Text) (format : CorpusFormat) : JobRun :=
  let (events, seen) := source store.files j.data format
  let o := Trainer.trainEvents { parameters := j.parameters } events
  let warnings := (if o.asked then seen else []) ++ o.warnings
  match o.result with
  | .error e => { result := .error (.training e), store, warnings }
  | .ok t =>
    if j.evaluates then
      let warnings := warnings ++ seen ++ seen
      match measure t.model events.items with
      | .error e => { result := .error (.evaluation e), store, warnings, trained := some t }
      | .ok metrics => j.save store time t o.trainer.parameters warnings (some metrics)
    else j.save store time t o.trainer.parameters warnings none

/-- Whether data are in this format and their path is checked when the job begins. -/
def needsPath : CorpusFormat → Bool
  | .documents => false
  | _ => true

def run (j : Job) (store : ModelStore) (time : Text) : JobRun :=
  let failed (e : JobError) : JobRun := { result := .error e, store, warnings := [] }
  match j.format.proper?.bind CorpusFormat.ofName? with
  | none => failed (.format j.format.shown)
  | some format =>
    if needsPath format && j.data.proper?.isNone then failed .noPath else j.train store time format

end Job

end MaxEnt
