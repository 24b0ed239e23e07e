import MaxEnt.Files.Glob
import MaxEnt.Files.Path
import MaxEnt.Table
import MaxEnt.Text.Utf8

namespace MaxEnt

/-- The content of a file. That of a compressed file is kept as it was before compression. -/
structure File where
  bytes : List UInt8
  compressed : Bool
  deriving DecidableEq

inductive Node where
  | file (content : File)
  | folder
  deriving DecidableEq

inductive FileError where
  | missing
  | notFolder
  | isFolder
  | present
  | nameTooLong
  | surrogate
  | nullByte
  deriving DecidableEq

/-- Files and folders by their paths. The empty paths are folders without being listed. -/
structure FileTree where
  nodes : Table Path Node

namespace FileTree

def empty : FileTree := ⟨.empty⟩

instance : Inhabited FileTree := ⟨empty⟩

/-- A surrogate `U+DC80` to `U+DCFF` stands for a byte that is no text. -/
def isByte (c : CodePoint) : Bool := 0xDC80 ≤ c.val && c.val ≤ 0xDCFF

def byteCount (t : Text) : Nat :=
  (t.map fun c => ((Utf8.encodeCodePoint c).getD [0]).length).foldr (· + ·) 0

def maxNameBytes : Nat := 255

def checkText (t : Text) : Except FileError Unit :=
  if t.any fun c => c.isSurrogate && !isByte c then .error .surrogate
  else if t.contains 0 then .error .nullByte
  else .ok ()

def node? (tree : FileTree) (p : Path) : Option Node :=
  if p.parts.isEmpty then some .folder else tree.nodes.get? p

/-- Goes from a folder to what it holds under a name, or up. -/
def step (tree : FileTree) (here : Path) (part : Text) : Except FileError Path :=
  match tree.node? here with
  | none => .error .missing
  | some (.file _) => .error .notFolder
  | some .folder =>
    if part = ".." then .ok here.parent
    else if maxNameBytes < byteCount part then .error .nameTooLong
    else .ok ⟨here.root, here.parts ++ [part]⟩

def maxPathBytes : Nat := 4095

def checkPath (p : Path) : Except FileError Unit := do
  p.parts.forM checkText
  if maxPathBytes < byteCount p.text then throw .nameTooLong

/-- The path without steps up. All but its last part must be folders. -/
def resolve (tree : FileTree) (p : Path) : Except FileError Path := do
  checkPath p
  p.parts.foldlM tree.step ⟨if p.root.isEmpty then "" else "/", []⟩

def find (tree : FileTree) (p : Path) : Except FileError Node := do
  match tree.node? (← tree.resolve p) with
  | some node => pure node
  | none => throw .missing

def isFolder (tree : FileTree) (p : Path) : Bool :=
  match tree.find p with
  | .ok .folder => true
  | _ => false

/-- Whether there is something. A path that cannot be names nothing, unless it is too long. -/
def contains (tree : FileTree) (p : Path) : Except FileError Bool :=
  match tree.find p with
  | .ok _ => .ok true
  | .error .nameTooLong => .error .nameTooLong
  | .error _ => .ok false

def read (tree : FileTree) (p : Path) : Except FileError File := do
  match ← tree.find p with
  | .file content => pure content
  | .folder => throw .isFolder

def place (tree : FileTree) (p : Path) : Except FileError Path := do
  let q ← tree.resolve p
  if tree.node? q = some .folder then throw .isFolder else pure q

def write (tree : FileTree) (p : Path) (content : File) : Except FileError FileTree := do
  return ⟨tree.nodes.insert (← tree.place p) (.file content)⟩

def remove (tree : FileTree) (p : Path) : Except FileError FileTree := do
  let _ ← tree.read p
  return ⟨tree.nodes.erase (← tree.resolve p)⟩

def makeFolder (tree : FileTree) (p : Path) : Except FileError FileTree := do
  let q ← tree.resolve p
  if (tree.node? q).isSome then throw .present
  else return ⟨tree.nodes.insert q .folder⟩

def ensureFolder (tree : FileTree) (p : Path) : Except FileError FileTree :=
  if tree.isFolder p then .ok tree else tree.makeFolder p

def makeFolders (tree : FileTree) (p : Path) : Except FileError FileTree := do
  checkPath p
  (List.range p.parts.length).foldlM
    (fun tree i => tree.ensureFolder ⟨p.root, p.parts.take (i + 1)⟩) tree

def below (tree : FileTree) (p : Path) : List (List Text × Node) :=
  match tree.resolve p with
  | .error _ => []
  | .ok q =>
    tree.nodes.entries.filterMap fun (r, node) =>
      if r.root = q.root && q.parts.isPrefixOf r.parts then
        some (r.parts.drop q.parts.length, node)
      else none

def names (tree : FileTree) (p : Path) : List Text :=
  (tree.below p).filterMap fun (parts, _) =>
    match parts with
    | [name] => some name
    | _ => none

def folders (tree : FileTree) (p : Path) : List Path :=
  p :: (tree.below p).filterMap fun (parts, node) =>
    if node = .folder && !parts.isEmpty then some ⟨p.root, p.parts ++ parts⟩ else none

inductive GlobError where
  | rooted
  /-- Two stars, which go through folders, stand beside other things. -/
  | twoStars
  | file (e : FileError)
  deriving DecidableEq

def twoStars : Text := "**"

def hasTwoStars (t : Text) : Bool := (t.zip t.tail).contains (↑ '*', ↑ '*')

def select (tree : FileTree) : List Text → Path → Except FileError (List Path)
  | [], p => .ok [p]
  | pattern :: rest, p =>
    let enter (q : Path) : Except FileError (List Path) :=
      if rest.isEmpty || tree.isFolder q then select tree rest q else .ok []
    if pattern = twoStars then do
      let found ← (tree.folders p).mapM fun q => select tree rest q
      return found.flatten.eraseDups
    else if Glob.isWild pattern then do
      let names := (tree.names p).filter (Glob.ofText pattern).accepts
      let found ← names.mapM fun name => enter ⟨p.root, p.parts ++ [name]⟩
      return found.flatten
    else do
      let q : Path := ⟨p.root, p.parts ++ [pattern]⟩
      if ← tree.contains q then enter q else return []

def glob (tree : FileTree) (folder : Path) (pattern : Text) : Except GlobError (List Path) :=
  let path := Path.ofText pattern
  if !path.root.isEmpty then .error .rooted
  else if path.parts.any fun part => part != twoStars && hasTwoStars part then .error .twoStars
  else if tree.isFolder folder then (tree.select path.parts folder).mapError .file
  else .ok []

end FileTree

end MaxEnt
