import MaxEnt.Text.CodeUnit

namespace MaxEnt.ModifiedUtf8

/-- One to three bytes, none of them zero. -/
def encodeUnit (u : CodeUnit) : List UInt8 :=
  let n := u.val
  if 0 < n && n < 0x80 then [.ofNat n]
  else if n < 0x800 then [.ofNat (0xC0 + n / 64), .ofNat (0x80 + n % 64)]
  else [.ofNat (0xE0 + n / 4096), .ofNat (0x80 + n / 64 % 64), .ofNat (0x80 + n % 64)]

/-- Surrogates, paired or alone, are written one by one. -/
def encode (t : Text) : List UInt8 := t.units.flatMap encodeUnit

def unit (n : Nat) : CodeUnit := Fin.ofNat 0x10000 n

/-- Reads the code units from position `i` on, after the units `done` (last first). Bytes after the
first of a sequence count by their low six bits, whatever their high ones are. Fails with the
position of a sequence that cannot be one. -/
def decodeUnits (i : Nat) (done : List CodeUnit) : List UInt8 → Except Nat (List CodeUnit)
  | [] => .ok done.reverse
  | b :: bs =>
    if b.toNat < 0x80 then decodeUnits (i + 1) (unit b.toNat :: done) bs
    else if b.toNat / 32 = 6 then
      match bs with
      | c :: bs => decodeUnits (i + 2) (unit (b.toNat % 32 * 64 + c.toNat % 64) :: done) bs
      | [] => .error i
    else if b.toNat / 16 = 14 then
      match bs with
      | c :: d :: bs =>
        decodeUnits (i + 3)
          (unit (b.toNat % 16 * 4096 + c.toNat % 64 * 64 + d.toNat % 64) :: done) bs
      | _ => .error i
    else .error i

def decode (bytes : List UInt8) : Except Nat Text :=
  (decodeUnits 0 [] bytes).map Text.ofUnits

end MaxEnt.ModifiedUtf8
