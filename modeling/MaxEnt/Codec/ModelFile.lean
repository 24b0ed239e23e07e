import MaxEnt.Codec.Binary
import MaxEnt.Codec.PlainText
import MaxEnt.Files.Tree

namespace MaxEnt

namespace Path

def isCompressed (p : Path) : Bool := p.suffix = ".gz"

def isPlainText (p : Path) : Bool :=
  let suffixes := if p.suffixes.getLast? = some ↑ ".gz" then p.suffixes.dropLast else p.suffixes
  suffixes.getLast? = some ↑ ".txt"

end Path

namespace File

/-- What a compressed file begins with. No text in UTF-8 begins so, and no string that a small file
can hold. -/
def compressedStart : List UInt8 := [0x1F, 0x8B]

/-- What reading finds in the file, and the fault behind it, if there is one. It undoes the
compression of which the name tells. -/
def content (file : File) (p : Path) : List UInt8 × Option Gzip.Fault :=
  match p.isCompressed, file.compressed with
  | true, true | false, false => (file.bytes, none)
  | true, false => Gzip.decompress file.bytes
  | false, true => (compressedStart, none)

end File

namespace Model

def ofContent (plainText : Bool) (bytes : List UInt8) (fault : Option Gzip.Fault) :
    Except ReadError (Model Binary64) :=
  let read :=
    if plainText then
      let lines := if fault.isSome then Lines.ofBeginning bytes else Lines.ofBytes bytes
      (PlainText.reader.model.run lines).run.1
    else (Binary.reader.model.run bytes).run.1
  match read, fault with
  | .error .endOfData, some f => .error (.damaged f)
  | read, _ => read

def ofFile (p : Path) (file : File) : Except ReadError (Model Binary64) :=
  let (bytes, fault) := file.content p
  ofContent p.isPlainText bytes fault

/-- The file with this model, or as much of it as is written until the first fault. -/
def toFile (m : Model Binary64) (p : Path) (plainText : Bool) : File × Option WriteError :=
  let encode := if plainText then PlainText.encodeUtf8 else Binary.encode
  let (output, fault) := (Output.writer encode true).persist m .empty
  (⟨output.written, p.isCompressed⟩, fault)

inductive LoadError where
  | file (cause : FileError)
  | data (cause : ReadError)
  deriving DecidableEq

def load (tree : FileTree) (p : Path) : Except LoadError (Model Binary64) := do
  let file ← (tree.read p).mapError .file
  (ofFile p file).mapError .data

/-- Writes a model under a path. The fault that kept the file from being complete, if any, stands
beside the tree that has the incomplete file. -/
def save (m : Model Binary64) (tree : FileTree) (p : Path) (plainText : Bool) :
    Except FileError (FileTree × Option WriteError) := do
  let (file, fault) := m.toFile p plainText
  return (← tree.write p file, fault)

end Model

end MaxEnt
