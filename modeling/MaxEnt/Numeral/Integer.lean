import MaxEnt.Text.Blank
import MaxEnt.Text.Digit

namespace MaxEnt.Numeral

def digitsOnto (n : Nat) (low : List Nat) : List Nat :=
  if n < 10 then n :: low else digitsOnto (n / 10) (n % 10 :: low)

def digits (n : Nat) : List Nat := digitsOnto n []

def ofDigits (ds : List Nat) : Nat := ds.foldl (fun n d => 10 * n + d) 0

def ofNat (n : Nat) : Text := (digits n).map CodePoint.ofDecimal

def ofInt (n : Int) : Text :=
  if n < 0 then ↑ '-' :: ofNat n.natAbs else ofNat n.natAbs

/-- Blanks that may surround a number; the four separators `U+001C` to `U+001F` may not. -/
def isBlank (c : CodePoint) : Bool := c.isBlank && !(28 ≤ c.val && c.val ≤ 31)

/-- Digits in groups that single underscores join. -/
def groupedDigits? (digit? : CodePoint → Option Nat) (t : Text) : Option (List Nat) :=
  let groups := t.splitOn '_'
  if groups.any List.isEmpty then none else groups.flatten.mapM digit?

def splitSign : Text → Bool × Text
  | [] => (false, [])
  | c :: t => if c = '-' then (true, t) else if c = '+' then (false, t) else (false, c :: t)

def signed (negative : Bool) (n : Nat) : Int := if negative then -n else n

def maxDigits : Nat := 4300

/-- Reads an integer: blanks around it, a sign, digits of any script. -/
def integer? (t : Text) : Option Int :=
  let (negative, body) := splitSign (t.trim isBlank)
  match groupedDigits? CodePoint.decimal? body with
  | some ds => if ds.length ≤ maxDigits then some (signed negative (ofDigits ds)) else none
  | none => none

end MaxEnt.Numeral
