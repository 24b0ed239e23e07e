import MaxEnt.Codec.ModelFile
import MaxEnt.Store.Metadata

namespace MaxEnt

/-- A folder in which models are kept by name, version and time, each with a file of metadata. -/
structure ModelStore where
  files : FileTree
  folder : Path

namespace ModelStore

inductive SaveError where
  | file (e : FileError)
  | model (e : WriteError)
  deriving DecidableEq

inductive LoadError where
  | notFound (p : Path)
  | model (e : Model.LoadError)
  | file (e : FileError)
  | metadata (e : MetadataError)

def notFoundMessage (p : Path) : Text := "Model not found: " ++ p.text

def openAt (files : FileTree) (folder : Path) : Except FileError ModelStore :=
  (files.makeFolders folder).map (⟨·, folder⟩)

def stamp (name version time : Text) : Text := List.intercalate "_" [name, version, time]

def modelPath (s : ModelStore) (name version time : Text) : Path :=
  s.folder.join (.ofText (stamp name version time ++ ↑ ".bin"))

def metadataPath (s : ModelStore) (name version time : Text) : Path :=
  s.folder.join (.ofText (stamp name version time ++ ↑ "_metadata.json"))

/-- Writes the model. Nothing is left under the path of one that could not be written in full. -/
def writeModel (files : FileTree) (p : Path) (m : Model Binary64) :
    Except SaveError Unit × FileTree :=
  match m.save files p p.isPlainText with
  | .error e => (.error (.file e), files)
  | .ok (files, none) => (.ok (), files)
  | .ok (files, some e) => (.error (.model e), (files.remove p).toOption.getD files)

def save (s : ModelStore) (m : ReportedModel) (name version time : Text)
    (entries : Table Text Json) : Except SaveError Path × ModelStore :=
  let p := s.modelPath name version time
  match writeModel s.files p m.model with
  | (.error e, files) => (.error e, { s with files })
  | (.ok (), files) =>
    let content := Metadata.bytes (Metadata.ofModel m name version time entries)
    match files.write (s.metadataPath name version time) ⟨content, false⟩ with
    | .error e => (.error (.file e), { s with files })
    | .ok files => (.ok p, { s with files })

def metadataOf (p : Path) : Path := p.withName (p.stem ++ ↑ "_metadata.json")

/-- The metadata of a model, which are empty where there is no file of them. -/
def loadMetadata (files : FileTree) (p : Path) : Except LoadError Json := do
  if ← (files.contains (metadataOf p)).mapError .file then
    let file ← (files.read (metadataOf p)).mapError .file
    (Metadata.ofBytes file.bytes).mapError .metadata
  else return .object []

def load (s : ModelStore) (p : Path) : Except LoadError (ReportedModel × Json) := do
  if !(← (s.files.contains p).mapError .file) then throw (.notFound p)
  let model ← (Model.load s.files p).mapError .model
  let metadata ← loadMetadata s.files p
  let report ← (Metadata.report metadata).mapError .metadata
  return (⟨model, report⟩, metadata)

def defaultVersion : Text := "v1"

/-- The pattern for the files of a name's models. The name and the version may be patterns. -/
def pattern (name version : Text) : Text :=
  Text.concat [name, ↑ "_", version, ↑ "_*.bin"]

def laterPath (p q : Path) : Path := if p.parts < q.parts then q else p

def lastPath? : List Path → Option Path
  | [] => none
  | p :: ps => some (ps.foldl laterPath p)

def latest? (s : ModelStore) (name version : Text) : Except FileTree.GlobError (Option Path) :=
  (s.files.glob s.folder (pattern name version)).map lastPath?

end ModelStore

end MaxEnt
