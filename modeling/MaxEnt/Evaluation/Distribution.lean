import MaxEnt.Scalar
import MaxEnt.Text.Basic

namespace MaxEnt

namespace Text

def precedesOrEquals (s t : Text) : Bool := !decide (t < s)

def sorted (ts : List Text) : List Text := ts.eraseDups.mergeSort precedesOrEquals

end Text

structure Distribution where
  counts : List (Text × Nat)

namespace Distribution

def ofLabels (labels : List Text) : Distribution :=
  ⟨(Text.sorted labels).map fun label => (label, labels.count label)⟩

def total (d : Distribution) : Nat := (d.counts.map Prod.snd).foldr (· + ·) 0

variable (κ : Type) [Scalar κ]

def percentages (d : Distribution) : List (Text × κ) :=
  d.counts.map fun (label, n) =>
    (label, Scalar.ofInt n / Scalar.ofInt d.total * Scalar.ofInt 100)

end Distribution

end MaxEnt
