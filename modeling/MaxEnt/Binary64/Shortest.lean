import MaxEnt.Binary64.Rounding

namespace MaxEnt

structure Decimal where
  significand : Nat
  exponent : Int
  deriving DecidableEq, Repr

namespace Decimal

def dropZeros : Nat → Decimal → Decimal
  | 0, d => d
  | fuel + 1, d =>
    if d.significand % 10 = 0 then dropZeros fuel ⟨d.significand / 10, d.exponent + 1⟩ else d

end Decimal

/-- The power of ten that counts the first digit of `num / den`. Below one it is that of the digits
of `den / num`, rounded up and less one. -/
def firstPlace (num den : Nat) : Int :=
  if den ≤ num then (Numeral.digits (num / den)).length - 1
  else 0 - (Numeral.digits ((den + num - 1) / num - 1)).length

namespace Binary64

/-- The nearest of the decimals of `count` digits that read back as `x`, if one does. -/
def decimalOf? (x : Binary64) (count : Nat) : Option Decimal :=
  let (num, den) := x.ratio
  let e := firstPlace num den - count + 1
  let (n, d) := scaleRatio 10 num den (-e)
  let below : Decimal := ⟨n / d, e⟩
  let above : Decimal := ⟨n / d + 1, e⟩
  let readsBack (c : Decimal) : Bool := ofDecimal x.isNegative c.significand c.exponent = x
  match readsBack below, readsBack above with
  | true, true => if roundHalfEven n d = n / d then some below else some above
  | true, false => some below
  | false, true => some above
  | false, false => none

def exactDecimal (x : Binary64) : Decimal :=
  if 0 ≤ x.exponent then ⟨x.significand * Nat.pow 2 x.exponent.toNat, 0⟩
  else ⟨x.significand * Nat.pow 5 (-x.exponent).toNat, x.exponent⟩

/-- The absolute value of a finite double in the fewest digits that read back. -/
def shortest (x : Binary64) : Decimal :=
  if x.magnitude = 0 then ⟨0, 0⟩
  else
    let d := ((List.range 17).findSome? fun i => x.decimalOf? (i + 1)).getD x.exactDecimal
    d.dropZeros 400

end Binary64

end MaxEnt
