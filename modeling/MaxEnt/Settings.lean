import MaxEnt.Corpus
import MaxEnt.Parameters.Held

namespace MaxEnt

structure Settings where
  environment : Held Text := .proper "development"
  logLevel : Held Text := .proper "INFO"
  debug : Held Bool := .proper false
  modelsFolder : Held Text := .proper "backend/models/saved"
  modelName : Held Text := .proper "maxent"
  modelVersion : Held Text := .proper "v1"
  dataPath : Held (Option Text) := .proper none
  dataFormat : Held Text := .proper "events"
  algorithm : Held Text := .proper "MAXENT"
  iterations : Held Int := .proper 100
  cutoff : Held (Option Int) := .proper none
  indexer : Held Text := .proper "OnePass"
  evaluates : Held Bool := .proper true
  /-- The least probability of a prediction that counts as sure. -/
  threshold : Held Binary64 := .proper (.ofDecimal false 5 (-1))

inductive Setting where
  | environment
  | logLevel
  | debug
  | modelsFolder
  | modelName
  | modelVersion
  | dataPath
  | dataFormat
  | algorithm
  | iterations
  | cutoff
  | indexer
  | evaluates
  | threshold
  deriving DecidableEq

namespace Setting

def all : List Setting :=
  [environment, logLevel, debug, modelsFolder, modelName, modelVersion, dataPath, dataFormat,
    algorithm, iterations, cutoff, indexer, evaluates, threshold]

def name : Setting → Text
  | environment => "environment"
  | logLevel => "log_level"
  | debug => "debug"
  | modelsFolder => "models_dir"
  | modelName => "model_name"
  | modelVersion => "model_version"
  | dataPath => "training_data_path"
  | dataFormat => "training_data_format"
  | algorithm => "training_algorithm"
  | iterations => "training_iterations"
  | cutoff => "training_cutoff"
  | indexer => "training_data_indexer"
  | evaluates => "training_evaluate"
  | threshold => "prediction_confidence_threshold"

def ofName? (name : Text) : Option Setting := all.find? (·.name == name)

def variableName (f : Setting) : Text := Text.upperAscii f.name

end Setting

namespace Settings

def assign (s : Settings) (value : Json) : Setting → Except ConversionError Settings
  | .environment => (Held.convert value).map ({ s with environment := · })
  | .logLevel => (Held.convert value).map ({ s with logLevel := · })
  | .debug => (Held.convert value).map ({ s with debug := · })
  | .modelsFolder => (Held.convert value).map ({ s with modelsFolder := · })
  | .modelName => (Held.convert value).map ({ s with modelName := · })
  | .modelVersion => (Held.convert value).map ({ s with modelVersion := · })
  | .dataPath => (Held.convert value).map ({ s with dataPath := · })
  | .dataFormat => (Held.convert value).map ({ s with dataFormat := · })
  | .algorithm => (Held.convert value).map ({ s with algorithm := · })
  | .iterations => (Held.convert value).map ({ s with iterations := · })
  | .cutoff => (Held.convert value).map ({ s with cutoff := · })
  | .indexer => (Held.convert value).map ({ s with indexer := · })
  | .evaluates => (Held.convert value).map ({ s with evaluates := · })
  | .threshold => (Held.convert value).map ({ s with threshold := · })

def put (s : Settings) (value : Json) : Setting → Settings
  | .environment => { s with environment := .ofJson value }
  | .logLevel => { s with logLevel := .ofJson value }
  | .debug => { s with debug := .ofJson value }
  | .modelsFolder => { s with modelsFolder := .ofJson value }
  | .modelName => { s with modelName := .ofJson value }
  | .modelVersion => { s with modelVersion := .ofJson value }
  | .dataPath => { s with dataPath := .ofJson value }
  | .dataFormat => { s with dataFormat := .ofJson value }
  | .algorithm => { s with algorithm := .ofJson value }
  | .iterations => { s with iterations := .ofJson value }
  | .cutoff => { s with cutoff := .ofJson value }
  | .indexer => { s with indexer := .ofJson value }
  | .evaluates => { s with evaluates := .ofJson value }
  | .threshold => { s with threshold := .ofJson value }

def value (s : Settings) : Setting → Json
  | .environment => s.environment.json
  | .logLevel => s.logLevel.json
  | .debug => s.debug.json
  | .modelsFolder => s.modelsFolder.json
  | .modelName => s.modelName.json
  | .modelVersion => s.modelVersion.json
  | .dataPath => s.dataPath.json
  | .dataFormat => s.dataFormat.json
  | .algorithm => s.algorithm.json
  | .iterations => s.iterations.json
  | .cutoff => s.cutoff.json
  | .indexer => s.indexer.json
  | .evaluates => s.evaluates.json
  | .threshold => s.threshold.json

def isFormat (value : Text) : Bool := (CorpusFormat.ofName? value).isSome

def check (value : Text) (s : Settings) (f : Setting) : Except ConversionError Settings :=
  if f = .dataFormat ∧ !isFormat value then .error .notAllowed else .ok s

def take (given : Table Text Text) (acc : Settings × ConversionFaults) (f : Setting) :
    Settings × ConversionFaults :=
  match given.get? f.name with
  | none => acc
  | some v =>
    match acc.1.assign (.string v) f >>= (check v · f) with
    | .ok s => (s, acc.2)
    | .error e => (acc.1, acc.2 ++ [(f.name, e)])

inductive VariablesError where
  | untold
  | values (faults : ConversionFaults)

def VariablesError.names : VariablesError → List Text
  | untold => [Setting.dataFormat.name]
  | values faults => faults.map Prod.fst

def hasUntoldFormat (given : Table Text Text) : Bool :=
  (given.get? Setting.dataFormat.name).any fun v => v.hasSurrogate && !isFormat v

/-- The settings that variables give, whose names may be in capital or small letters. Fails with all
values that do not convert. -/
def ofVariables (given : Table Text Text) : Except VariablesError Settings :=
  let small := Table.ofList (given.entries.map fun e => (Text.lowerAscii e.1, e.2))
  let (s, faults) := Setting.all.foldl (take small) ({}, [])
  if hasUntoldFormat small then .error .untold
  else if faults.isEmpty then .ok s
  else .error (.values faults)

def isEnvironment (s : Settings) (name : Text) : Bool := Text.lowerAscii s.environment.shown == name

def isProduction (s : Settings) : Bool := s.isEnvironment "production"

def isDevelopment (s : Settings) : Bool := s.isEnvironment "development"

end Settings

end MaxEnt
