import MaxEnt.Job.Basic

namespace MaxEnt

namespace FileError

/-- Whether the path could be, but the file system has nothing there that could be used. -/
def isOfSystem : FileError → Bool
  | surrogate => false
  | nullByte => false
  | _ => true

end FileError

namespace JobError

/-- What a user is told of an error that parameters, data or files are the reason of; nothing beyond
the failure for those of the file system. Other errors are none that a user can mend. -/
def refusal? : JobError → Option (Option Text)
  | training (.parameter (.configuration e)) => some (some e.message)
  | training .insufficient => some (some TrainingError.insufficientMessage)
  | training (.source (.file e)) => if e.isOfSystem then some none else none
  | save (.file e) => if e.isOfSystem then some none else none
  | save (.model (.tooLarge _)) => none
  | save (.model .surrogate) => none
  | save (.model e) => some (some e.message)
  | _ => none

end JobError

inductive LogLine where
  | warning (message : Text)
  | error (message : Text)
  deriving DecidableEq

def LogLine.text : LogLine → Text
  | warning message => "WARNING: " ++ message
  | error message => "ERROR: " ++ message

structure ProgramRun where
  succeeds : Bool
  files : FileTree
  log : List LogLine

inductive ProgramError where
  | parameters (e : MappingError)
  | noFolder
  | folder (e : FileError)
  | job (e : JobError)

namespace ProgramError

def message : ProgramError → Text
  | job (.format shown) => CorpusFormat.unknown shown
  | job (.training (.source (.corpus (.event e)))) => e.message
  | job (.training (.negative n)) => n.message
  | job (.training (.parameter e)) => e.message
  | _ => "Training was broken off"

end ProgramError

namespace Program

def noData : Text := "No training data configured (set TRAINING_DATA_PATH)"

def failure : Option Text → Text
  | some message => "Training failed: " ++ message
  | none => "Training failed"

def ending (r : JobRun) : Except ProgramError ProgramRun :=
  let log := r.warnings.map .warning
  match r.result with
  | .ok _ => .ok ⟨true, r.store.files, log⟩
  | .error e =>
    match e.refusal? with
    | some message => .ok ⟨false, r.store.files, log ++ [.error (failure message)]⟩
    | none => .error (.job e)

def job (s : Settings) (files : FileTree) (time : Text) : Except ProgramError JobRun := do
  let parameters ← (Job.parametersOf s).mapError .parameters
  match s.modelsFolder with
  | .loose _ => throw .noFolder
  | .proper folder =>
    let store ← (ModelStore.openAt files (.ofText folder)).mapError .folder
    return (Job.ofSettings s parameters).run store time

/-- Trains from the data of the settings and stores the model. Nothing is done without data. -/
def run (s : Settings) (files : FileTree) (time : Text) : Except ProgramError ProgramRun :=
  if s.dataPath.json.affirms then job s files time >>= ending
  else .ok ⟨false, files, [.error noData]⟩

end Program

end MaxEnt
