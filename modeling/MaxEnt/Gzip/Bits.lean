namespace MaxEnt.Gzip

/-- Bytes of which the first may be used up in part: its last `count` bits are left. -/
structure Bits where
  left : Nat := 0
  count : Nat := 0
  bytes : List UInt8

inductive Stop where
  | starved
  | invalid
  deriving DecidableEq

abbrev BitReader := StateT Bits (Except Stop)

namespace BitReader

/-- The next bit; of a byte the lowest comes first. -/
def bit : BitReader Nat := do
  let s ← get
  match s.count, s.bytes with
  | n + 1, _ =>
    set { s with left := s.left / 2, count := n }
    return s.left % 2
  | 0, b :: bs =>
    set (Bits.mk (b.toNat / 2) 7 bs)
    return b.toNat % 2
  | 0, [] => throw .starved

/-- A number of which the lowest bit comes first. -/
def number : Nat → BitReader Nat
  | 0 => return 0
  | n + 1 => do
    let low ← bit
    return low + 2 * (← number n)

def align : BitReader Unit := modify fun s => { s with left := 0, count := 0 }

def byte : BitReader UInt8 := return .ofNat (← number 8)

end BitReader

end MaxEnt.Gzip
