import MaxEnt.Event.HashStream
import MaxEnt.Index.Indexer
import MaxEnt.Training.Method

namespace MaxEnt

inductive ConfigurationError where
  | trainerType (shown : Text)
  | algorithm (shown : Text)
  | indexer (shown : Text)
  /-- The indexer is unknown when events are to be indexed. -/
  | noIndexer (shown : Text)
  | iterations (shown : Text)
  | cutoff (shown : Text)
  deriving DecidableEq

namespace ConfigurationError

def message : ConfigurationError → Text
  | trainerType shown => "Unsupported trainer type: " ++ shown
  | algorithm shown => "Unknown training algorithm: " ++ shown
  | indexer shown =>
    Text.concat ["Unknown data indexer: ", shown, " (expected one of ",
      List.intercalate ", " (Indexer.all.map Indexer.name), ")"]
  | noIndexer shown => "Unknown data indexer: " ++ shown
  | iterations shown => "Iterations must be positive: " ++ shown
  | cutoff shown => "Cutoff must not be negative: " ++ shown

end ConfigurationError

inductive ParameterError where
  | configuration (e : ConfigurationError)
  | unusable (p : Parameter)
  deriving DecidableEq

namespace ParameterError

def message : ParameterError → Text
  | configuration e => e.message
  | unusable p => "Unusable parameter: " ++ p.name

end ParameterError

inductive TrainingError (ε : Type) where
  | parameter (e : ParameterError)
  | source (cause : ε)
  | surrogate (e : Event)
  | negative (n : NegativeValue)
  | insufficient
  | method (e : MethodError)
  deriving DecidableEq

namespace TrainingError

def insufficientMessage : Text := "Training data must contain more than one outcome"

def ofFault {ε : Type} : HashStream.Fault ε → TrainingError ε
  | .surrogate e => surrogate e
  | .failed cause => source cause

end TrainingError

structure Trainer where
  parameters : Parameters
  method : Option Method := none
  report : Table Text Json := .empty
  runs : Nat := 0

/-- What an operation gives, the trainer after it, its warnings, and the events that were not read.
There may be no event to read, so that none was asked for is told apart. -/
structure Outcome (ε α : Type) where
  result : Except (TrainingError ε) α
  trainer : Trainer
  warnings : List Text := []
  unread : List Event := []
  asked : Bool := true

def Outcome.refused {ε α : Type} (e : ParameterError) (t : Trainer) (events : List Event) :
    Outcome ε α :=
  { result := .error (.parameter e), trainer := t, unread := events, asked := false }

namespace Trainer

variable {ε : Type}

def defaultCutoff : Int := 5

/-- Looks up what has the name that a parameter holds. Lists and objects are no names. -/
def lookUp {α : Type} (p : Parameter) (find? : Text → Option α) :
    Held Text → Except ParameterError (Option α)
  | .proper name => .ok (find? name)
  | .loose (.array _) => .error (.unusable p)
  | .loose (.object _) => .error (.unusable p)
  | .loose _ => .ok none

def checkBound (p : Parameter) (bound : Int) (refusal : Text → ConfigurationError) (value : Json) :
    Except ParameterError Unit :=
  match Number.ofJson? value with
  | none => .error (.unusable p)
  | some n => if n.isBelow bound then .error (.configuration (refusal value.shown)) else .ok ()

def checkTrainerType : Held Text → Except ConfigurationError Unit
  | .proper name => if name = "Event" then .ok () else .error (.trainerType name)
  | .loose value => .error (.trainerType value.shown)

def methodOf (algorithm : Held Text) : Except ParameterError Method := do
  match ← lookUp .algorithm Method.ofName? algorithm with
  | some m => return m
  | none => throw (.configuration (.algorithm algorithm.shown))

def checkIndexer : Held Text → Except ConfigurationError Unit
  | .proper name => if (Indexer.ofName? name).isSome then .ok () else .error (.indexer name)
  | .loose value => .error (.indexer value.shown)

def checkCutoff : Json → Except ParameterError Unit
  | .null => .ok ()
  | value => checkBound .cutoff 0 .cutoff value

/-- Checks the trainer type, the algorithm unless the method is known, the indexer, the iterations
and the cutoff, in this order. -/
def validate (t : Trainer) (ps : Parameters) : Except ParameterError Unit := do
  (checkTrainerType ps.trainerType).mapError .configuration
  if t.method.isNone then let _ ← methodOf ps.algorithm
  (checkIndexer ps.indexer).mapError .configuration
  checkBound .iterations 1 .iterations ps.iterations.json
  checkCutoff ps.cutoff.json

def method? (t : Trainer) : Except ParameterError Method :=
  match t.method with
  | some m => .ok m
  | none => methodOf t.parameters.algorithm

/-- The parameters with rows sorted as the method wants it, and a cutoff. -/
def prepareParameters (m : Method) (ps : Parameters) : Parameters :=
  let ps := { ps.settle with sortAndMerge := .proper (some m.sorts) }
  match ps.cutoff.json with
  | .null => { ps with cutoff := .proper (some defaultCutoff) }
  | _ => ps

def prepare (t : Trainer) (m : Method) : Trainer :=
  { t with method := some m, parameters := prepareParameters m t.parameters }

def index (t : Trainer) (indexer : Indexer) (sort : Bool)
    (events : Drain (TrainingError ε) Event) : Outcome ε Indexing :=
  match events.failure, Indexing.cutoffFor events.items t.parameters.cutoff.json with
  | some e, _ => { result := .error e, trainer := t }
  | none, none => { result := .error (.parameter (.unusable .cutoff)), trainer := t }
  | none, some cutoff =>
    match Indexing.ofEvents { indexer, cutoff, sort } events.items with
    | .error n => { result := .error (.negative n), trainer := t }
    | .ok i =>
      { result := .ok i
        trainer := { t with report := t.report.union (i.report.map .string) }
        warnings := i.warnings }

def indexer? (t : Trainer) : Except ParameterError Indexer := do
  match ← lookUp .indexer Indexer.ofName? t.parameters.indexer with
  | some i => return i
  | none => throw (.configuration (.noIndexer t.parameters.indexer.shown))

/-- Indexes events with the indexer of the parameters. Before the first event is asked for, the
method and the cutoff are settled. -/
def buildIndex (t : Trainer) (events : Drain (TrainingError ε) Event) : Outcome ε Indexing :=
  match t.method? with
  | .error e => .refused e t events.items
  | .ok m =>
    let t := t.prepare m
    match t.indexer? with
    | .error e => .refused e t events.items
    | .ok indexer => t.index indexer m.sorts events

def algorithmName (t : Trainer) (m : Method) : Json :=
  if m.name.isEmpty then t.parameters.algorithm.json else .string m.name

def addReport (t : Trainer) (m : Method) (report : Table Text Json) : Trainer :=
  { t with
    report := ((t.report.union report).insert "Algorithm" (t.algorithmName m)).insert
      "TrainerType" (.string "Event") }

def runMethod (t : Trainer) (m : Method) (x : EventIndex) : Outcome ε Trained :=
  let after := { t with method := some m, runs := t.runs + 1 }
  match m.train t.runs t.parameters x with
  | (.error e, warnings) => { result := .error (.method e), trainer := after, warnings }
  | (.ok trained, warnings) =>
    let after := after.addReport m trained.report
    { result := .ok { trained with report := after.report }, trainer := after, warnings }

/-- Trains from an index and adds to what is reported already. -/
def trainOn (t : Trainer) (x : EventIndex) : Outcome ε Trained :=
  match t.validate t.parameters with
  | .error e => { result := .error (.parameter e), trainer := t }
  | .ok () =>
    if x.labels.length ≤ 1 then { result := .error .insufficient, trainer := t }
    else
      match t.method? with
      | .error e => { result := .error (.parameter e), trainer := t }
      | .ok m => t.runMethod m x

def trainIndex (t : Trainer) (x : EventIndex) : Outcome ε Trained :=
  { t with report := .empty }.trainOn x

def trainHanded (t : Trainer) (events : HashStream ε) : Outcome ε Trained :=
  let (handed, stream) := events.drain
  let built := t.buildIndex (handed.mapFailure .ofFault)
  match built.result with
  | .error e =>
    { built with
      result := .error e
      unread := (if built.asked then stream else events).left.items }
  | .ok i =>
    let t := { built.trainer with
      report := built.trainer.report.insert "Training-Eventhash"
        (.string (stream.hexSum?.getD [])) }
    let trained := t.trainOn i.index
    { trained with warnings := built.warnings ++ trained.warnings }

/-- Trains from events. No event is asked for unless the parameters are valid. -/
def trainEvents (t : Trainer) (events : Drain ε Event) : Outcome ε Trained :=
  match t.validate t.parameters with
  | .error e => .refused e t events.items
  | .ok () => { t with report := .empty }.trainHanded (.start events)

end Trainer

end MaxEnt
