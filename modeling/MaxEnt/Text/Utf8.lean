import MaxEnt.Text.Basic

namespace MaxEnt.Utf8

/-- One to four bytes; a surrogate has none. -/
def encodeCodePoint (c : CodePoint) : Option (List UInt8) :=
  let n := c.val
  if c.isSurrogate then none
  else if n < 0x80 then some [.ofNat n]
  else if n < 0x800 then some [.ofNat (0xC0 + n / 64), .ofNat (0x80 + n % 64)]
  else if n < 0x10000 then
    some [.ofNat (0xE0 + n / 4096), .ofNat (0x80 + n / 64 % 64), .ofNat (0x80 + n % 64)]
  else
    some [.ofNat (0xF0 + n / 262144), .ofNat (0x80 + n / 4096 % 64), .ofNat (0x80 + n / 64 % 64),
      .ofNat (0x80 + n % 64)]

def encode (t : Text) : Option (List UInt8) :=
  if t.hasSurrogate then none
  else some (t.flatMap fun c => (encodeCodePoint c).getD [])

/-- How the bytes of a text end: after a whole code point, inside one, or at a byte that no code point
has there. -/
inductive Ending where
  | complete
  | truncated
  | malformed (after : Nat)
  deriving DecidableEq, Repr

structure Pending where
  owed : Nat
  bits : Nat
  low : Nat
  high : Nat

def Pending.ofLead (b : Nat) : Option Pending :=
  if 0xC2 ≤ b && b ≤ 0xDF then some ⟨1, b - 0xC0, 0x80, 0xBF⟩
  else if b == 0xE0 then some ⟨2, 0, 0xA0, 0xBF⟩
  else if b == 0xED then some ⟨2, 0xD, 0x80, 0x9F⟩
  else if 0xE1 ≤ b && b ≤ 0xEF then some ⟨2, b - 0xE0, 0x80, 0xBF⟩
  else if b == 0xF0 then some ⟨3, 0, 0x90, 0xBF⟩
  else if 0xF1 ≤ b && b ≤ 0xF3 then some ⟨3, b - 0xF0, 0x80, 0xBF⟩
  else if b == 0xF4 then some ⟨3, 4, 0x80, 0x8F⟩
  else none

def codePoint (n : Nat) : CodePoint := if h : n < 0x110000 then ⟨n, h⟩ else 0xFFFD

/-- The text up to the first fault, read after the code points `done` (last first), and how the
bytes end. -/
def decodeFrom (done : Text) : Option Pending → List UInt8 → Text × Ending
  | none, [] => (done.reverse, .complete)
  | some _, [] => (done.reverse, .truncated)
  | none, b :: bs =>
    if b.toNat < 0x80 then decodeFrom (codePoint b.toNat :: done) none bs
    else match Pending.ofLead b.toNat with
      | some p => decodeFrom done (some p) bs
      | none => (done.reverse, .malformed bs.length)
  | some p, b :: bs =>
    if p.low ≤ b.toNat && b.toNat ≤ p.high then
      let bits := p.bits * 64 + b.toNat % 64
      if p.owed ≤ 1 then decodeFrom (codePoint bits :: done) none bs
      else decodeFrom done (some ⟨p.owed - 1, bits, 0x80, 0xBF⟩) bs
    else (done.reverse, .malformed bs.length)

def decodeUpToFault (bytes : List UInt8) : Text × Ending := decodeFrom [] none bytes

def decode (bytes : List UInt8) : Option Text :=
  match decodeUpToFault bytes with
  | (t, .complete) => some t
  | _ => none

end MaxEnt.Utf8
