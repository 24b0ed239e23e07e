import MaxEnt.Text.Basic

namespace MaxEnt

structure Path where
  /-- No, one or two slashes: two have a meaning of their own. -/
  root : Text
  parts : List Text
  deriving DecidableEq

namespace Path

def isPart (part : Text) : Bool := !part.isEmpty && part != ↑ "."

def rootOf (t : Text) : Text :=
  match (t.takeWhile (· = ↑ '/')).length with
  | 0 => ""
  | 2 => "//"
  | _ => "/"

def ofText (t : Text) : Path := ⟨rootOf t, (t.splitOn '/').filter isPart⟩

def text (p : Path) : Text :=
  if p.root.isEmpty && p.parts.isEmpty then "." else p.root ++ List.intercalate "/" p.parts

/-- Another path from here; one with a root replaces this one. -/
def join (p q : Path) : Path := if q.root.isEmpty then ⟨p.root, p.parts ++ q.parts⟩ else q

def name (p : Path) : Text := p.parts.getLast?.getD []

def parent (p : Path) : Path := ⟨p.root, p.parts.dropLast⟩

def withName (p : Path) (name : Text) : Path := ⟨p.root, p.parts.dropLast ++ [name]⟩

/-- A name cut at its last dot, unless that begins or ends it. -/
def cutName (name : Text) : Text × Text :=
  match name.splitLast '.' with
  | some (stem, rest) =>
    if stem.isEmpty || rest.isEmpty then (name, []) else (stem, ↑ '.' :: rest)
  | none => (name, [])

def stem (p : Path) : Text := (cutName p.name).1

def suffix (p : Path) : Text := (cutName p.name).2

/-- What follows each dot, with the dot. Dots that begin the name do not count, and a name that
ends in a dot has no suffixes. -/
def suffixes (p : Path) : List Text :=
  if p.name.getLast? = some ↑ '.' then []
  else ((Text.splitOn '.' (p.name.dropWhile (· = ↑ '.'))).drop 1).map fun s => ↑ '.' :: s

end Path

end MaxEnt
