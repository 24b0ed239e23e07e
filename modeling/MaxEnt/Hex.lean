import MaxEnt.Text.Digit

namespace MaxEnt.Hex

def encode (bytes : List UInt8) : Text :=
  bytes.flatMap fun b => [CodePoint.ofHex (b.toNat / 16), CodePoint.ofHex (b.toNat % 16)]

def decodeOnto (done : List UInt8) : Text → Option (List UInt8)
  | [] => some done.reverse
  | h :: l :: t =>
    match h.hex?, l.hex? with
    | some a, some b => decodeOnto (.ofNat (16 * a + b) :: done) t
    | _, _ => none
  | [_] => none

def decode (t : Text) : Option (List UInt8) := decodeOnto [] t

def ofNat (n : Nat) : Text := (Nat.toDigits 16 n).map CodePoint.ofChar

end MaxEnt.Hex
