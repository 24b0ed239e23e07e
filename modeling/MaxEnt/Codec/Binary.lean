import MaxEnt.BigEndian
import MaxEnt.Codec.Reader
import MaxEnt.Codec.Writer
import MaxEnt.Text.ModifiedUtf8

namespace MaxEnt.Binary

def fitsInt (n : Int) : Bool := -2147483648 ≤ n && n < 2147483648

/-- A string in modified UTF-8 behind its length in two bytes, an integer in four, a double in
eight, the most significant byte first. -/
def encode : Field → Except WriteError (List UInt8)
  | .utf value =>
    let bytes := ModifiedUtf8.encode value
    if bytes.length ≤ maxStringBytes then .ok (BigEndian.ofNat 2 bytes.length ++ bytes)
    else .error (.tooLong bytes.length)
  | .int value =>
    if fitsInt value then .ok (BigEndian.ofNat 4 (value % 4294967296).toNat)
    else .error (.tooLarge value)
  | .double value => .ok (BigEndian.ofNat 8 value.bits.toNat)

/-- Takes `count` bytes; where fewer are left it takes these and fails. -/
def take (count : Nat) : Reading (List UInt8) (List UInt8) := fun bytes =>
  let taken := bytes.take count
  if taken.length < count then (.error .endOfData, []) else (.ok taken, bytes.drop count)

def utf : Reading (List UInt8) Text := do
  let length ← take 2
  match ModifiedUtf8.decode (← take (BigEndian.toNat length)) with
  | .ok value => pure value
  | .error place => throw (.malformedString place)

def signed (bytes : List UInt8) : Int :=
  let n := BigEndian.toNat bytes
  if n < 2147483648 then n else (n : Int) - 4294967296

def int : Reading (List UInt8) Int := return signed (← take 4)

def double : Reading (List UInt8) Binary64 := return ⟨.ofNat (BigEndian.toNat (← take 8))⟩

def reader : Reader (List UInt8) := ⟨utf, int, double⟩

end MaxEnt.Binary
