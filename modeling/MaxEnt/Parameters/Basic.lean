import MaxEnt.Parameters.Held
import MaxEnt.Table

namespace MaxEnt

structure Parameters where
  algorithm : Held Text := .proper "MAXENT"
  trainerType : Held Text := .proper "Event"
  iterations : Held Int := .proper 100
  /-- The fewest occurrences of a predicate that is kept. -/
  cutoff : Held (Option Int) := .proper none
  indexer : Held Text := .proper "OnePass"
  sortAndMerge : Held (Option Bool) := .proper none
  smoothing : Held Bool := .proper false
  smoothingObservation : Held Binary64 := .proper (.ofDecimal false 1 (-1))
  /-- The change of the log-likelihood below which training stops. -/
  threshold : Held Binary64 := .proper (.ofDecimal false 1 (-4))
  options : Table Text Json := .empty
  /-- What was set under a name with an underscore in front. It joins the options when something
  else is set. -/
  hidden : Table Text Json := .empty

instance : Inhabited Parameters := ⟨{}⟩

inductive Parameter where
  | algorithm
  | trainerType
  | iterations
  | cutoff
  | indexer
  | sortAndMerge
  | smoothing
  | smoothingObservation
  | threshold
  deriving DecidableEq

namespace Parameter

def all : List Parameter :=
  [algorithm, trainerType, iterations, cutoff, indexer, sortAndMerge, smoothing,
    smoothingObservation, threshold]

def name : Parameter → Text
  | algorithm => "algorithm"
  | trainerType => "trainer_type"
  | iterations => "iterations"
  | cutoff => "cutoff"
  | indexer => "data_indexer"
  | sortAndMerge => "sort_and_merge"
  | smoothing => "smoothing"
  | smoothingObservation => "smoothing_observation"
  | threshold => "ll_threshold"

def property : Parameter → Text
  | algorithm => "Algorithm"
  | trainerType => "TrainerType"
  | iterations => "Iterations"
  | cutoff => "Cutoff"
  | indexer => "DataIndexer"
  | sortAndMerge => "sort"
  | smoothing => "Smoothing"
  | smoothingObservation => "SmoothingObservation"
  | threshold => "LLThreshold"

def ofName? (name : Text) : Option Parameter := all.find? (·.name == name)

/-- The key under which a mapping gives the parameter: its property, else its name. -/
def key? (p : Parameter) (values : Table Text Json) : Option Text :=
  if values.contains p.property then some p.property
  else if values.contains p.name then some p.name
  else none

end Parameter

namespace Parameters

def assign (ps : Parameters) (value : Json) : Parameter → Except ConversionError Parameters
  | .algorithm => (Held.convert value).map ({ ps with algorithm := · })
  | .trainerType => (Held.convert value).map ({ ps with trainerType := · })
  | .iterations => (Held.convert value).map ({ ps with iterations := · })
  | .cutoff => (Held.convert value).map ({ ps with cutoff := · })
  | .indexer => (Held.convert value).map ({ ps with indexer := · })
  | .sortAndMerge => (Held.convert value).map ({ ps with sortAndMerge := · })
  | .smoothing => (Held.convert value).map ({ ps with smoothing := · })
  | .smoothingObservation => (Held.convert value).map ({ ps with smoothingObservation := · })
  | .threshold => (Held.convert value).map ({ ps with threshold := · })

def put (ps : Parameters) (value : Json) : Parameter → Parameters
  | .algorithm => { ps with algorithm := .ofJson value }
  | .trainerType => { ps with trainerType := .ofJson value }
  | .iterations => { ps with iterations := .ofJson value }
  | .cutoff => { ps with cutoff := .ofJson value }
  | .indexer => { ps with indexer := .ofJson value }
  | .sortAndMerge => { ps with sortAndMerge := .ofJson value }
  | .smoothing => { ps with smoothing := .ofJson value }
  | .smoothingObservation => { ps with smoothingObservation := .ofJson value }
  | .threshold => { ps with threshold := .ofJson value }

def putOption (ps : Parameters) (e : Text × Json) : Parameters :=
  ((Parameter.ofName? e.1).map (ps.put e.2)).getD ps

/-- What was hidden becomes an option, and options with the name of a parameter go where that is.
This precedes each change. -/
def settle (ps : Parameters) : Parameters :=
  let given := ps.hidden.union ps.options
  let isOption (name : Text) : Bool := (Parameter.ofName? name).isNone
  given.entries.foldl putOption { ps with options := given.filter isOption, hidden := .empty }

inductive SetError where
  | readOnly
  | surrogate
  | value (e : ConversionError)

def readOnlyNames : List Text := ["model_extra", "model_fields_set", "trainer_options"]

def set (ps : Parameters) (name : Text) (value : Json) : Except SetError Parameters :=
  if readOnlyNames.contains name then .error .readOnly
  else if name.head? = some ↑ '_' then .ok { ps with hidden := ps.hidden.insert name value }
  else if name.hasSurrogate then .error .surrogate
  else match Parameter.ofName? name with
    | some p => (ps.settle.assign value p).mapError .value
    | none => .ok { ps.settle with options := ps.settle.options.insert name value }

def take (values : Table Text Json) (acc : Parameters × ConversionFaults) (p : Parameter) :
    Parameters × ConversionFaults :=
  match p.key? values with
  | none => acc
  | some key =>
    match acc.1.assign ((values.get? key).getD .null) p with
    | .ok ps => (ps, acc.2)
    | .error e => (acc.1, acc.2 ++ [(key, e)])

def optionsOf (values : Table Text Json) : List (Text × Json) :=
  let used := Parameter.all.filterMap (·.key? values)
  values.entries.filter fun e => !used.contains e.1

/-- The parameters of a mapping; what it does not give has its default. Fails with all values that
do not convert. -/
def ofMapping (values : Table Text Json) : Except MappingError Parameters :=
  let (ps, faults) := Parameter.all.foldl (take values) ({}, [])
  if values.keys.any Text.hasSurrogate then .error .surrogateKey
  else if faults.isEmpty then .ok { ps with options := .ofList (optionsOf values) }
  else .error (.values faults)

def value (ps : Parameters) : Parameter → Json
  | .algorithm => ps.algorithm.json
  | .trainerType => ps.trainerType.json
  | .iterations => ps.iterations.json
  | .cutoff => ps.cutoff.json
  | .indexer => ps.indexer.json
  | .sortAndMerge => ps.sortAndMerge.json
  | .smoothing => ps.smoothing.json
  | .smoothingObservation => ps.smoothingObservation.json
  | .threshold => ps.threshold.json

def isSet : Json → Bool
  | .null => false
  | _ => true

/-- Whether the parameters can be shown as properties: a hidden name with a surrogate forbids it. -/
def isShowable (ps : Parameters) : Bool := !ps.hidden.keys.any Text.hasSurrogate

def properties (ps : Parameters) : Table Text Text :=
  let given := Parameter.all.map (fun p => (p.property, ps.value p)) ++ ps.options.entries
  .ofList ((given.filter fun e => isSet e.2).map fun e => (e.1, e.2.property))

end Parameters

end MaxEnt
