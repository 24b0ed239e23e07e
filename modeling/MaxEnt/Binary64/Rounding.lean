import MaxEnt.Binary64.Basic
import MaxEnt.Numeral.Integer

namespace MaxEnt

def roundHalfEven (num den : Nat) : Nat :=
  let q := num / den
  let r := num % den
  if 2 * r < den then q
  else if 2 * r = den then q + q % 2
  else q + 1

/-- `num / den * base ^ k` as numerator and denominator. -/
def scaleRatio (base num den : Nat) (k : Int) : Nat × Nat :=
  (num * Nat.pow base k.toNat, den * Nat.pow base (-k).toNat)

namespace Binary64

/-- The power of two by which the last of 53 bits of `num / den` counts, in doubles no less than
`-1074`. -/
def lastPlace (num den : Nat) : Int :=
  let p : Int := (num.log2 : Int) - den.log2 - 52
  let (n, d) := scaleRatio 2 num den (-p)
  max (if n / d < fractions then p - 1 else p) (-1074)

/-- The double nearest to `num / den`; halfway, the one whose last bit is zero. -/
def ofRatio (negative : Bool) (num den : Nat) : Binary64 :=
  if num = 0 then ofMagnitude negative 0
  else
    let p := lastPlace num den
    let (n, d) := scaleRatio 2 num den (-p)
    ofMagnitude negative (min ((p + 1074).toNat * fractions + roundHalfEven n d) infinityBits)

def ofInt (n : Int) : Binary64 := ofRatio (n < 0) n.natAbs 1

/-- The double nearest to `significand * 10 ^ exponent`. What lies far beyond the largest double or
below half of the smallest is told by its number of digits. -/
def ofDecimal (negative : Bool) (significand : Nat) (exponent : Int) : Binary64 :=
  let places := (Numeral.digits significand).length + exponent
  if significand = 0 then ofMagnitude negative 0
  else if 310 ≤ places then infinity negative
  else if places ≤ -324 then ofMagnitude negative 0
  else
    let (n, d) := scaleRatio 10 significand 1 exponent
    ofRatio negative n d

end Binary64

end MaxEnt
