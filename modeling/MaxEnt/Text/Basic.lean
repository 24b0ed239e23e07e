namespace MaxEnt

/-- A Unicode code point. Surrogates are included, because a label may hold one alone. -/
abbrev CodePoint := Fin 0x110000

abbrev Text := List CodePoint

namespace CodePoint

instance : @NeZero Nat Zero.ofOfNat0 0x110000 := ⟨by decide⟩

def ofChar (c : Char) : CodePoint :=
  ⟨c.val.toNat, by have h := c.valid; unfold UInt32.isValidChar Nat.isValidChar at h; omega⟩

instance : Coe Char CodePoint := ⟨ofChar⟩

def isHighSurrogate (c : CodePoint) : Bool := 0xD800 ≤ c.val && c.val < 0xDC00

def isLowSurrogate (c : CodePoint) : Bool := 0xDC00 ≤ c.val && c.val < 0xE000

def isSurrogate (c : CodePoint) : Bool := c.isHighSurrogate || c.isLowSurrogate

def lowerAscii (c : CodePoint) : CodePoint :=
  if h : 65 ≤ c.val ∧ c.val ≤ 90 then ⟨c.val + 32, by omega⟩ else c

def upperAscii (c : CodePoint) : CodePoint :=
  if 97 ≤ c.val ∧ c.val ≤ 122 then ⟨c.val - 32, by omega⟩ else c

def toChar (c : CodePoint) : Char := if c.isSurrogate then '\uFFFD' else Char.ofNat c.val

end CodePoint

namespace Text

def ofString (s : String) : Text := s.toList.map CodePoint.ofChar

instance : Coe String Text := ⟨ofString⟩

def concat (parts : List Text) : Text := parts.flatten

def lowerAscii (t : Text) : Text := t.map CodePoint.lowerAscii

def upperAscii (t : Text) : Text := t.map CodePoint.upperAscii

def toString (t : Text) : String := String.ofList (t.map CodePoint.toChar)

def hasSurrogate (t : Text) : Bool := t.any CodePoint.isSurrogate

def cutStep (separator c : CodePoint) (pieces : List Text) : List Text :=
  if c = separator then [] :: pieces
  else match pieces with
    | [] => [[c]]
    | p :: ps => (c :: p) :: ps

/-- The pieces between the separators: one more than there are separators. -/
def splitOn (separator : CodePoint) (t : Text) : List Text :=
  t.foldr (cutStep separator) [[]]

/-- The lines that line feeds end; a last line may lack its line feed. -/
def lines (t : Text) : List Text := t.foldr (cutStep '\n') []

def splitFirst (separator : CodePoint) (t : Text) : Option (Text × Text) :=
  match t.dropWhile (· != separator) with
  | [] => none
  | _ :: after => some (t.takeWhile (· != separator), after)

def splitLast (separator : CodePoint) (t : Text) : Option (Text × Text) :=
  (splitFirst separator t.reverse).map fun (after, before) => (before.reverse, after.reverse)

def dropLastWhile (p : CodePoint → Bool) (t : Text) : Text :=
  (t.reverse.dropWhile p).reverse

def trim (p : CodePoint → Bool) (t : Text) : Text := dropLastWhile p (t.dropWhile p)

/-- Carriage returns, alone or before a line feed, become line feeds. -/
def unifyNewlines (t : Text) : Text :=
  (t.foldr step ([], none)).1
where
  step (c : CodePoint) : Text × Option CodePoint → Text × Option CodePoint
    | (read, next) =>
      if c = '\r' then (if next = some ↑ '\n' then read else ↑ '\n' :: read, some c)
      else (c :: read, some c)

end Text

end MaxEnt
