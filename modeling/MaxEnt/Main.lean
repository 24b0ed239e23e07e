import MaxEnt.Job.Program
import Std.Time

namespace MaxEnt.Program

def environment : IO (Table Text Text) := do
  let names := Setting.all.flatMap fun f => [f.name, f.variableName]
  let found ← names.filterMapM fun name => do
    let value ← IO.getEnv (Text.toString name)
    return value.map fun v => (name, Text.ofString v)
  return .ofList found

def dataFiles (path : Text) : IO FileTree := do
  try
    let bytes ← IO.FS.readBinFile (Text.toString path)
    let p := Path.ofText path
    let files := do FileTree.write (← FileTree.makeFolders .empty p.parent) p ⟨bytes.toList, false⟩
    return files.toOption.getD .empty
  catch _ => return .empty

def writeBack (before after : FileTree) : IO Unit :=
  after.nodes.entries.forM fun (p, node) => do
    if before.nodes.get? p ≠ some node then
      match node with
      | .folder => IO.FS.createDirAll (Text.toString p.text)
      | .file content => IO.FS.writeBinFile (Text.toString p.text) content.bytes.toByteArray

def time : IO Text := do
  return Text.ofString ((← Std.Time.PlainDateTime.now).format "uuuuMMdd_HHmmss_SSSSSS")

def tell (message : Text) : IO Unit := IO.eprintln (Text.toString message)

def perform (s : Settings) : IO Bool := do
  let before ← match s.dataPath with
    | .proper (some path) => dataFiles path
    | _ => pure .empty
  match run s before (← time) with
  | .error e =>
    tell e.message
    return false
  | .ok r =>
    r.log.forM fun line => tell line.text
    writeBack before r.files
    return r.succeeds

end MaxEnt.Program

open MaxEnt in
def main : IO UInt32 := do
  match Settings.ofVariables (← Program.environment) with
  | .error e =>
    e.names.forM fun name => Program.tell ("Invalid setting: " ++ name)
    return 1
  | .ok s => return if ← Program.perform s then 0 else 1
