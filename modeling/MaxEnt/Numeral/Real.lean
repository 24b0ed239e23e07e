import MaxEnt.Binary64.Shortest

namespace MaxEnt.Numeral

structure Scientific where
  whole : List Nat
  fraction : List Nat
  exponent : Int

namespace Scientific

def toBinary64 (s : Scientific) (negative : Bool) : Binary64 :=
  Binary64.ofDecimal negative (ofDigits (s.whole ++ s.fraction)) (s.exponent - s.fraction.length)

def part? (digit? : CodePoint → Option Nat) (t : Text) : Option (List Nat) :=
  if t.isEmpty then some [] else groupedDigits? digit? t

def exponent? (digit? : CodePoint → Option Nat) (t : Text) : Option Int :=
  let (negative, body) := splitSign t
  (groupedDigits? digit? body).map fun ds => signed negative (ofDigits ds)

/-- Digits with a point before, between or after them, then an `e` and a power of ten; the point
and the power may be missing. -/
def ofText? (digit? : CodePoint → Option Nat) (t : Text) : Option Scientific := do
  let isMark (c : CodePoint) := c.lowerAscii == ↑ 'e'
  let mantissa : Text := t.takeWhile (!isMark ·)
  let exponent ← match t.dropWhile (!isMark ·) with
    | [] => some 0
    | _ :: power => exponent? digit? power
  let (whole, fraction) := (mantissa.splitFirst '.').getD (mantissa, [])
  let whole ← part? digit? whole
  let fraction ← part? digit? fraction
  if whole.isEmpty && fraction.isEmpty then none else some ⟨whole, fraction, exponent⟩

end Scientific

/-- A number without blanks around it: a sign, then `inf`, `infinity` or `nan` in small or capital
letters, or digits. -/
def bareReal? (digit? : CodePoint → Option Nat) (t : Text) : Option Binary64 :=
  let (negative, body) := splitSign t
  let word := body.lowerAscii
  if word = "inf" || word = "infinity" then some (.infinity negative)
  else if word = "nan" then some (.notANumber negative)
  else (Scientific.ofText? digit? body).map (·.toBinary64 negative)

def real? (t : Text) : Option Binary64 := bareReal? CodePoint.decimal? (t.trim isBlank)

def zeros (count : Nat) : Text := List.replicate count '0'

def padded (count n : Nat) : Text := zeros (count - (ofNat n).length) ++ ofNat n

def power (e : Int) : Text :=
  ↑ 'e' :: (if e < 0 then ↑ '-' else ↑ '+') :: padded 2 e.natAbs

/-- Positional where the first digit counts at least `10 ^ (-4)` and less than `10 ^ 16`, with at
least one digit after the point; else one digit before the point and a power of ten. -/
def ofDecimal (d : Decimal) : Text :=
  let ds := ofNat d.significand
  let first : Int := ds.length - 1 + d.exponent
  if -4 ≤ first && first < 16 then
    if 0 ≤ d.exponent then
      Text.concat [ds, zeros d.exponent.toNat, ".0"]
    else if 0 ≤ first then
      Text.concat [ds.take (first.toNat + 1), ".", ds.drop (first.toNat + 1)]
    else
      Text.concat ["0.", zeros ((-first).toNat - 1), ds]
  else if ds.length ≤ 1 then ds ++ power first
  else Text.concat [ds.take 1, ".", ds.drop 1, power first]

def ofSign (negative : Bool) : Text := if negative then "-" else ""

def ofBinary64 (x : Binary64) (digitsOf : Binary64 → Text) : Text :=
  if x.isNaN then "nan"
  else if x.isInfinite then ofSign x.isNegative ++ "inf"
  else ofSign x.isNegative ++ digitsOf x

/-- The shortest text that reads back as the same double. -/
def ofReal (x : Binary64) : Text := ofBinary64 x fun x => ofDecimal x.shortest

def fixed (places : Nat) (x : Binary64) : Text :=
  ofBinary64 x fun x =>
    let (num, den) := x.ratio
    let n := roundHalfEven (num * Nat.pow 10 places) den
    Text.concat [ofNat (n / Nat.pow 10 places), ".", padded places (n % Nat.pow 10 places)]

def scientific (places : Nat) (x : Binary64) : Text :=
  ofBinary64 x fun x =>
    let (num, den) := x.ratio
    let first := if num = 0 then 0 else firstPlace num den
    let (n, d) := scaleRatio 10 num den (places - first)
    let m := roundHalfEven n d
    let (m, first) :=
      if m = Nat.pow 10 (places + 1) then (Nat.pow 10 places, first + 1) else (m, first)
    Text.concat
      [ofNat (m / Nat.pow 10 places), ".", padded places (m % Nat.pow 10 places), power first]

end MaxEnt.Numeral
