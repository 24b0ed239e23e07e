import MaxEnt.Gzip.Crc32
import MaxEnt.Gzip.Inflate

namespace MaxEnt.Gzip

inductive Fault where
  /-- They are no file of this kind, or a check shows that they are damaged. -/
  | bad
  /-- They end before what they hold does. -/
  | cut
  | invalid
  deriving DecidableEq

def exactly (count : Nat) (bytes : List UInt8) : Except Fault (List UInt8 × List UInt8) :=
  if bytes.length < count then .error .cut else .ok (bytes.splitAt count)

def littleEndian (bytes : List UInt8) : Nat := bytes.foldr (fun b n => b.toNat + 256 * n) 0

def dropZeroEnded (bytes : List UInt8) : List UInt8 := (bytes.dropWhile (· ≠ 0)).drop 1

/-- What follows the head of a member, if one begins. It is marked by two bytes, its method must be
the eighth, and four of its flags announce parts that tell nothing here. -/
def dropHead (bytes : List UInt8) : Except Fault (Option (List UInt8)) := do
  if bytes.isEmpty then return none
  if bytes.take 2 ≠ [0x1F, 0x8B] then throw .bad
  let (head, bytes) ← exactly 8 (bytes.drop 2)
  if head.head? ≠ some 8 then throw .bad
  let flags := head.getD 1 0
  let has (flag : UInt8) : Bool := flags &&& flag ≠ 0
  let bytes ← if has 4 then do
      let (size, bytes) ← exactly 2 bytes
      let (_, bytes) ← exactly (littleEndian size) bytes
      pure bytes
    else pure bytes
  let bytes := if has 8 then dropZeroEnded bytes else bytes
  let bytes := if has 16 then dropZeroEnded bytes else bytes
  if has 2 then
    let (_, bytes) ← exactly 2 bytes
    return some bytes
  else return some bytes

/-- What follows the end of a member and the zeros behind it. The end tells a checksum and the size of
the output. -/
def dropEnd (output : List UInt8) (bytes : List UInt8) : Except Fault (List UInt8) := do
  let (checks, bytes) ← exactly 8 bytes
  let (sum, size) := checks.splitAt 4
  if littleEndian sum ≠ (Crc32.ofBytes output).toNat then throw .bad
  if littleEndian size ≠ output.length % 4294967296 then throw .bad
  return bytes.dropWhile (· = 0)

structure Reader where
  bytes : List UInt8
  member : Option Inflater

namespace Reader

/-- Goes to the next member when one has ended or none has begun; nothing if there is none. -/
def enter (r : Reader) : Except Fault (Option (Inflater × List UInt8)) := do
  let begin (bytes : List UInt8) : Except Fault (Option (Inflater × List UInt8)) := do
    return (← dropHead bytes).map fun bytes => (⟨⟨0, 0, []⟩, .border, false, false, .nothing, #[]⟩, bytes)
  match r.member with
  | none => begin r.bytes
  | some m => if m.isDone then begin (← dropEnd m.output.toList r.bytes) else return some (m, r.bytes)

/-- Reads until there is some output. At the end there is none; `fuel` bounds the number of
portions. -/
def next : (fuel : Nat) → Reader → Except Fault (List UInt8 × Reader)
  | 0, _ => .error .cut
  | fuel + 1, r => do
    match ← r.enter with
    | none => return ([], r)
    | some (m, bytes) =>
      let (given, rest) := bytes.splitAt Inflater.portion
      match m.inflate given with
      | .error _ => throw .invalid
      | .ok (m, out, unused) =>
        let r : Reader := ⟨unused ++ rest, some m⟩
        if !out.isEmpty then return (out, r)
        if given.isEmpty then throw .cut
        next fuel r

def toEnd : (fuel : Nat) → Reader → List (List UInt8) × Option Fault
  | 0, _ => ([], none)
  | fuel + 1, r =>
    match r.next (r.bytes.length + 2) with
    | .error e => ([], some e)
    | .ok (out, r) =>
      if out.isEmpty then ([], none)
      else
        let (outs, fault) := toEnd fuel r
        (out :: outs, fault)

end Reader

/-- What can be read of compressed bytes, and the fault behind it, if there is one. It is met only
where more is asked for. -/
def decompress (bytes : List UInt8) : List UInt8 × Option Fault :=
  let (outs, fault) := Reader.toEnd (2064 * bytes.length + 1) ⟨bytes, none⟩
  (outs.flatten, fault)

end MaxEnt.Gzip
