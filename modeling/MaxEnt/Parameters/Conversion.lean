import MaxEnt.Binary64.Rounding
import MaxEnt.Json.Basic
import MaxEnt.Numeral.Real

namespace MaxEnt

inductive ConversionError where
  | noInteger
  | tooManyDigits
  | fractional
  | infinite
  | notInteger
  | noNumber
  | notNumber
  | noTruth
  | notTruth
  | notText
  /-- A text with a surrogate where a number or a truth value is read. -/
  | surrogate
  | notAllowed
  deriving DecidableEq

namespace Conversion

def isShort (n : Int) : Bool := -9223372036854775808 ≤ n && n ≤ 9223372036854775807

def checkText (t : Text) : Except ConversionError Unit :=
  if t.hasSurrogate then .error .surrogate else .ok ()

def dropPlus? : Text → Option Text
  | [] => some []
  | c :: t => if c = '+' then (if t.head? = some ↑ '-' then none else some t) else some (c :: t)

def splitMinus : Text → Bool × Text
  | [] => (false, [])
  | c :: t => if c = '-' then (true, t) else (false, c :: t)

def isIntegerStart (c : CodePoint) : Bool := c = '-' || c.asciiDecimal?.isSome

/-- Without the zeros that stand in front, and without underscores among them. What follows may have
a minus of its own; where nothing or a point follows, the last of them stays. -/
def dropLeadingZeros? (t : Text) : Option Text :=
  let isLeading (c : CodePoint) : Bool := c = '0' || c = '_'
  let last := (t.takeWhile isLeading).getLast?.toList
  if t.head? ≠ some ↑ '0' then some t
  else match t.dropWhile isLeading with
    | [] => some last
    | c :: rest =>
      if c = '.' then some (last ++ c :: rest)
      else if isIntegerStart c then some (c :: rest)
      else none

def dropZeroFraction (t : Text) : Text :=
  match t.splitFirst '.' with
  | some (whole, fraction) =>
    if !fraction.isEmpty && fraction.all (· = ↑ '0') then whole else t
  | none => t

def dropUnderscores? (t : Text) : Option Text :=
  if (t.splitOn '_').any List.isEmpty then none else some (t.filter (· ≠ ↑ '_'))

/-- A minus or none, and the digits `0` to `9`, of which none but a single one begins with zero. -/
def plainInteger? (t : Text) : Option Int :=
  let (negative, body) := splitMinus t
  match body.mapM CodePoint.asciiDecimal? with
  | none => none
  | some [] => none
  | some (0 :: _ :: _) => none
  | some ds =>
    if ds.length ≤ Numeral.maxDigits then some (Numeral.signed negative (Numeral.ofDigits ds))
    else none

def cleanInteger? (t : Text) : Option Text := do
  let t ← dropPlus? (Text.trim Numeral.isBlank t)
  let (negative, body) := splitMinus t
  let body := dropZeroFraction (← dropLeadingZeros? body)
  return (if negative then "-" else "") ++ (dropUnderscores? body).getD body

/-- Whether a text begins, behind a minus or none, with more digits than are read. A zero ends the
digits that it begins. -/
def beginsTooLong (t : Text) : Bool :=
  let digits := (splitMinus t).2.takeWhile fun c => c.asciiDecimal?.isSome
  digits.head? ≠ some ↑ '0' && Numeral.maxDigits < digits.length

/-- Blanks around, a sign, digits with underscores between them, and a fraction of zeros. -/
def integerOfText (t : Text) : Except ConversionError Int := do
  checkText t
  if beginsTooLong t then throw .tooManyDigits
  match (cleanInteger? t).bind plainInteger? with
  | some n => pure n
  | none => throw .noInteger

def integerOfReal (x : Binary64) : Except ConversionError Int :=
  let (num, den) := x.ratio
  if !x.isFinite then .error .infinite
  else if num % den ≠ 0 then .error .fractional
  else if num / den < 9223372036854775808 then .ok (Numeral.signed x.isNegative (num / den))
  else .error .tooManyDigits

def integer : Json → Except ConversionError Int
  | .int n => .ok n
  | .bool b => .ok (if b then 1 else 0)
  | .real x => integerOfReal x
  | .string t => integerOfText t
  | _ => .error .notInteger

def realOfText (t : Text) : Except ConversionError Binary64 := do
  checkText t
  let bare (t : Text) : Option Binary64 :=
    if t.contains ↑ '_' then none else Numeral.bareReal? CodePoint.asciiDecimal? t
  match bare (Text.trim Numeral.isBlank t) <|> (dropUnderscores? t).bind bare with
  | some x => pure x
  | none => throw .noNumber

def real : Json → Except ConversionError Binary64
  | .real x => .ok x
  | .int n =>
    let x := Binary64.ofInt n
    if x.isInfinite then .error .notNumber else .ok x
  | .bool b => .ok (if b then .one else .zero)
  | .string t => realOfText t
  | _ => .error .notNumber

def trueWords : List Text := ["1", "true", "t", "yes", "y", "on"]

def falseWords : List Text := ["0", "false", "f", "no", "n", "off"]

def truthOfInteger (n : Int) : Except ConversionError Bool :=
  if n = 0 then .ok false else if n = 1 then .ok true else .error .noTruth

def truth : Json → Except ConversionError Bool
  | .bool b => .ok b
  | .int n => if isShort n then truthOfInteger n else .error .notTruth
  | .real x =>
    match integerOfReal x with
    | .ok n => truthOfInteger n
    | .error _ => .error .notTruth
  | .string t => do
    checkText t
    let word := Text.lowerAscii t
    if trueWords.contains word then pure true
    else if falseWords.contains word then pure false
    else throw .noTruth
  | _ => .error .notTruth

def text : Json → Except ConversionError Text
  | .string t => .ok t
  | _ => .error .notText

def optional {α : Type} (convert : Json → Except ConversionError α) :
    Json → Except ConversionError (Option α)
  | .null => .ok none
  | j => (convert j).map some

end Conversion

/-- The values that did not convert, by the keys under which they were given. -/
abbrev ConversionFaults := List (Text × ConversionError)

inductive MappingError where
  | surrogateKey
  | values (faults : ConversionFaults)

end MaxEnt
