namespace MaxEnt

/-- A double as its 64 bits in the binary64 format: a sign, eleven bits of exponent, 52 of
fraction. Two doubles are the same when their bits are, so there are many that are not a number. -/
structure Binary64 where
  bits : UInt64
  deriving DecidableEq

namespace Binary64

def infinityBits : Nat := 0x7FF0000000000000

def isNegative (x : Binary64) : Bool := 0x8000000000000000 ≤ x.bits.toNat

def magnitude (x : Binary64) : Nat := x.bits.toNat % 0x8000000000000000

def ofMagnitude (negative : Bool) (m : Nat) : Binary64 :=
  ⟨.ofNat ((if negative then 0x8000000000000000 else 0) + m)⟩

def isNaN (x : Binary64) : Bool := infinityBits < x.magnitude

def isInfinite (x : Binary64) : Bool := x.magnitude = infinityBits

def isFinite (x : Binary64) : Bool := x.magnitude < infinityBits

def zero : Binary64 := ofMagnitude false 0

def one : Binary64 := ofMagnitude false 0x3FF0000000000000

def infinity (negative : Bool) : Binary64 := ofMagnitude negative infinityBits

def notANumber (negative : Bool) : Binary64 := ofMagnitude negative 0x7FF8000000000000

instance : Inhabited Binary64 := ⟨zero⟩

/-- A number's place in the order of the doubles; both zeros have the same. -/
def rank (x : Binary64) : Int := if x.isNegative then -x.magnitude else x.magnitude

/-- Equal as numbers: the zeros are, what is not a number never is. -/
def equals (x y : Binary64) : Bool := !x.isNaN && !y.isNaN && x.rank == y.rank

def lessThan (x y : Binary64) : Bool := !x.isNaN && !y.isNaN && decide (x.rank < y.rank)

def fractions : Nat := 0x10000000000000

/-- A finite double is, but for its sign, `significand * 2 ^ exponent`. -/
def significand (x : Binary64) : Nat :=
  if x.magnitude < fractions then x.magnitude else fractions + x.magnitude % fractions

def exponent (x : Binary64) : Int := (max (x.magnitude / fractions) 1 : Nat) - 1075

/-- The absolute value of a finite double as numerator and denominator. -/
def ratio (x : Binary64) : Nat × Nat :=
  (x.significand * Nat.pow 2 x.exponent.toNat, Nat.pow 2 (-x.exponent).toNat)

def ceiling (x : Binary64) : Int :=
  let (num, den) := x.ratio
  if x.isNegative then -((num / den : Nat) : Int) else ((num + den - 1) / den : Nat)

def toInt? (x : Binary64) : Option Int :=
  let (num, den) := x.ratio
  if x.isFinite && num % den = 0 then
    some (if x.isNegative then -((num / den : Nat) : Int) else (num / den : Nat))
  else none

end Binary64

end MaxEnt
