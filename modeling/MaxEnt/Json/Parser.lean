import MaxEnt.Json.Basic
import MaxEnt.Numeral.Real
import MaxEnt.Text.CodeUnit

namespace MaxEnt.Json

inductive ParseError where
  | malformed
  | tooManyDigits
  | tooDeep
  deriving DecidableEq

def maxDepth : Nat := 985

def isBlank (c : CodePoint) : Bool := c = ' ' || c = '\t' || c = '\n' || c = '\r'

def skipBlanks (t : Text) : Text := t.dropWhile isBlank

def hex4? (a b c d : CodePoint) : Option CodePoint :=
  match a.hex?, b.hex?, c.hex?, d.hex? with
  | some a, some b, some c, some d => some (Fin.ofNat 0x110000 (((a * 16 + b) * 16 + c) * 16 + d))
  | _, _, _, _ => none

def unescape? (c : CodePoint) : Option CodePoint :=
  if c = '"' || c = '\\' || c = '/' then some c
  else if c = 'n' then some '\n'
  else if c = 'r' then some '\r'
  else if c = 't' then some '\t'
  else if c = 'b' then some 8
  else if c = 'f' then some 12
  else none

/-- Reads a string to its closing mark, after the code points `done` (last first). Surrogates that
stand side by side are joined. -/
def parseString (done : Text) : Text → Option (Text × Text)
  | [] => none
  | c :: t =>
    if c = '"' then some (Text.joinSurrogates done.reverse, t)
    else if c = '\\' then
      match t with
      | [] => none
      | e :: t =>
        if e = 'u' then
          match t with
          | w :: x :: y :: z :: t =>
            match hex4? w x y z with
            | some u => parseString (u :: done) t
            | none => none
          | _ => none
        else
          match unescape? e with
          | some u => parseString (u :: done) t
          | none => none
    else if c.val < 32 then none
    else parseString (c :: done) t

def isDigit (c : CodePoint) : Bool := c.asciiDecimal?.isSome

def digitsOf (t : Text) : List Nat := t.filterMap CodePoint.asciiDecimal?

/-- Whole digits: a zero alone, or digits that begin with none. -/
def parseWhole : Text → Option (Text × Text)
  | [] => none
  | c :: t =>
    if c = '0' then some ([c], t)
    else if isDigit c then some (c :: t.takeWhile isDigit, t.dropWhile isDigit)
    else none

def parseFraction : Text → Text × Text
  | [] => ([], [])
  | c :: t =>
    if c = '.' && t.head?.any isDigit then (t.takeWhile isDigit, t.dropWhile isDigit)
    else ([], c :: t)

def parsePower : Text → Option Int × Text
  | [] => (none, [])
  | c :: t =>
    let (negative, body) := Numeral.splitSign t
    if c.lowerAscii = 'e' && body.head?.any isDigit then
      (some (Numeral.signed negative (Numeral.ofDigits (digitsOf (body.takeWhile isDigit)))),
        body.dropWhile isDigit)
    else (none, c :: t)

/-- A number without a fraction and a power is an integer. -/
def parseUnsigned (negative : Bool) (t : Text) : Except ParseError (Json × Text) :=
  match parseWhole t with
  | none => .error .malformed
  | some (whole, t) =>
    let (fraction, t) := parseFraction t
    let (power, t) := parsePower t
    if !fraction.isEmpty || power.isSome then
      let s : Numeral.Scientific := ⟨digitsOf whole, digitsOf fraction, power.getD 0⟩
      .ok (real (s.toBinary64 negative), t)
    else if whole.length ≤ Numeral.maxDigits then
      .ok (int (Numeral.signed negative (Numeral.ofDigits (digitsOf whole))), t)
    else .error .tooManyDigits

def skip? (start t : Text) : Option Text :=
  if start.isPrefixOf t then some (t.drop start.length) else none

def words : List (Text × Json) :=
  [("null", null), ("true", bool true), ("false", bool false), ("NaN", real (.notANumber false)),
    ("Infinity", real (.infinity false)), ("-Infinity", real (.infinity true))]

def parseWord (t : Text) : Option (Json × Text) :=
  words.findSome? fun (word, value) => (skip? word t).map fun rest => (value, rest)

def parseKey : Text → Option (Text × Text)
  | [] => none
  | q :: t =>
    if q = '"' then
      match parseString [] t with
      | none => none
      | some (key, t) => (skip? ":" (skipBlanks t)).map fun t => (key, skipBlanks t)
    else none

def parseScalar (t : Text) : Except ParseError (Json × Text) :=
  match parseWord t with
  | some r => .ok r
  | none =>
    match t with
    | [] => .error .malformed
    | c :: t =>
      if c = '"' then
        match parseString [] t with
        | some (s, rest) => .ok (string s, rest)
        | none => .error .malformed
      else if c = '-' then parseUnsigned true t
      else parseUnsigned false (c :: t)

mutual

/-- Reads the value at the start of the text, in which arrays and objects may stand `depth` deep.
Each step spends one of `fuel`. -/
def parseValue : (fuel depth : Nat) → Text → Except ParseError (Json × Text)
  | 0, _, _ => .error .malformed
  | fuel + 1, depth, t =>
    match t with
    | [] => .error .malformed
    | c :: rest =>
      if c = '[' then
        let rest := skipBlanks rest
        if depth = 0 then .error .tooDeep
        else if rest.head? = some ↑ ']' then .ok (array [], rest.tail)
        else parseItems fuel (depth - 1) [] rest
      else if c = '{' then
        let rest := skipBlanks rest
        if depth = 0 then .error .tooDeep
        else if rest.head? = some ↑ '}' then .ok (object [], rest.tail)
        else parseFields fuel (depth - 1) [] rest
      else parseScalar t

def parseItems : (fuel depth : Nat) → List Json → Text → Except ParseError (Json × Text)
  | 0, _, _, _ => .error .malformed
  | fuel + 1, depth, done, t =>
    match parseValue fuel depth t with
    | .error e => .error e
    | .ok (item, t) =>
      match skipBlanks t with
      | [] => .error .malformed
      | c :: t =>
        if c = ',' then parseItems fuel depth (item :: done) (skipBlanks t)
        else if c = ']' then .ok (array (item :: done).reverse, t)
        else .error .malformed

/-- Reads the fields of an object to its end, after the fields `done`. A later value of a key takes
the place of an earlier one. -/
def parseFields : (fuel depth : Nat) → List (Text × Json) → Text →
    Except ParseError (Json × Text)
  | 0, _, _, _ => .error .malformed
  | fuel + 1, depth, done, t =>
    match parseKey t with
    | none => .error .malformed
    | some (key, t) =>
      match parseValue fuel depth t with
      | .error e => .error e
      | .ok (value, t) =>
        let done := Table.insertEntry key value done
        match skipBlanks t with
        | [] => .error .malformed
        | c :: t =>
          if c = ',' then parseFields fuel depth done (skipBlanks t)
          else if c = '}' then .ok (object done, t)
          else .error .malformed

end

def parse (t : Text) : Except ParseError Json :=
  match parseValue (2 * t.length + 2) maxDepth (skipBlanks t) with
  | .ok (value, rest) => if (skipBlanks rest).isEmpty then .ok value else .error .malformed
  | .error e => .error e

end MaxEnt.Json
