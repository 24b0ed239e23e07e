import MaxEnt.Binary64.Rounding

namespace MaxEnt

/-- The numbers that training and evaluation compute with. Comparisons are Boolean, as there may be
values that are not a number. -/
class Scalar (κ : Type) extends Zero κ, One κ, Add κ, Sub κ, Mul κ, Div κ where
  ofInt : Int → κ
  ofBinary64 : Binary64 → κ
  exp : κ → κ
  log : κ → κ
  le : κ → κ → Bool
  lt : κ → κ → Bool
  isNaN : κ → Bool

namespace Binary64

def toFloat (x : Binary64) : Float := Float.ofBits x.bits

def ofFloat (x : Float) : Binary64 := ⟨x.toBits⟩

end Binary64

instance : Scalar Float where
  zero := 0.0
  one := 1.0
  ofInt n := (Binary64.ofInt n).toFloat
  ofBinary64 := Binary64.toFloat
  exp := Float.exp
  log := Float.log
  le x y := x ≤ y
  lt x y := x < y
  isNaN := Float.isNaN

namespace Scalar

variable {κ : Type} [Scalar κ]

/-- The greater of two numbers; what is not a number is greater than all. -/
def greater (x y : κ) : κ := if le y x || isNaN x then x else y

def greatest : List κ → κ
  | [] => 0
  | x :: xs => xs.foldl greater x

def sum (xs : List κ) : κ := xs.foldl (· + ·) 0

/-- The distribution in which a number's share grows with its exponential. The greatest number is
taken away first, so that no exponential exceeds one. -/
def softmax (scores : List κ) : List κ :=
  let top := greatest scores
  let shares := scores.map fun s => exp (s - top)
  let whole := sum shares
  shares.map (· / whole)

def exceeds (y x : κ) : Bool := !isNaN x && (isNaN y || lt x y)

/-- Where the greatest of the numbers `x` at `place` and `xs` from `next` on stands first. -/
def placeOfGreatestFrom (place : Nat) (x : κ) (next : Nat) : List κ → Nat
  | [] => place
  | y :: ys =>
    if exceeds y x then placeOfGreatestFrom next y (next + 1) ys
    else placeOfGreatestFrom place x (next + 1) ys

def placeOfGreatest? : List κ → Option Nat
  | [] => none
  | x :: xs => some (placeOfGreatestFrom 0 x 1 xs)

end Scalar

end MaxEnt
