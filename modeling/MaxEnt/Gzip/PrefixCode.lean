import MaxEnt.Gzip.Bits

namespace MaxEnt.Gzip

/-- A canonical prefix code: how many symbols have code words of one bit, of two, and so on, and the
symbols in the order of their code words. -/
structure PrefixCode where
  counts : List Nat
  symbols : Array Nat

namespace PrefixCode

/-- How many code words of the next length there is room for behind those of the lengths counted. -/
def room : List Nat → Nat → Option Nat
  | [], n => some n
  | c :: cs, n => if c ≤ 2 * n then room cs (2 * n - c) else none

def symbolsOf (lengths : List Nat) (length : Nat) : List Nat :=
  lengths.zipIdx.filterMap fun (l, symbol) => if l = length then some symbol else none

/-- The code in which symbols have code words of these lengths, and none where the length is zero.
Every row of bits must be the start of one, unless there are no code words longer than a bit and
`partly` is set. -/
def ofLengths? (partly : Bool) (lengths : List Nat) : Option PrefixCode :=
  let longest := max 1 (lengths.foldl max 0)
  let groups := (List.range longest).map fun l => symbolsOf lengths (l + 1)
  let counts := groups.map List.length
  match room counts 1 with
  | none => none
  | some left =>
    if 0 < left && !(partly && longest = 1) then none else some ⟨counts, groups.flatten.toArray⟩

/-- Reads the rest of a code word whose bits so far are `word`. The first one as long is `first`, and
`index` symbols have shorter ones. -/
def decodeFrom (c : PrefixCode) (word first index : Nat) : List Nat → BitReader Nat
  | [] => throw .invalid
  | n :: ns => do
    let word := word + (← BitReader.bit)
    if word < first + n then return c.symbols.getD (index + (word - first)) 0
    else decodeFrom c (2 * word) (2 * (first + n)) (index + n) ns

def decode (c : PrefixCode) : BitReader Nat := c.decodeFrom 0 0 0 c.counts

end PrefixCode

end MaxEnt.Gzip
