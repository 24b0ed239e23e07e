import MaxEnt.Gzip.PrefixCode

namespace MaxEnt.Gzip

inductive Block where
  /-- A block begins, or the data end. -/
  | border
  | stored (left : Nat)
  | coded (literals distances : PrefixCode)

inductive Pending where
  | nothing
  | literal (b : UInt8)
  | copy (length distance : Nat)

structure Inflater where
  source : Bits
  block : Block := .border
  isLast : Bool := false
  isDone : Bool := false
  pending : Pending := .nothing
  output : Array UInt8 := #[]

namespace Inflater

/-- The least number that a symbol stands for, by the extra bits of the symbols before it. -/
def bases (start : Nat) (extra : List Nat) : List Nat :=
  (extra.foldl (fun (acc : List Nat × Nat) n => (acc.2 :: acc.1, acc.2 + Nat.pow 2 n)) ([], start)).1.reverse

def lengthExtra : List Nat :=
  [0, 0, 0, 0, 0, 0, 0, 0, 1, 1, 1, 1, 2, 2, 2, 2, 3, 3, 3, 3, 4, 4, 4, 4, 5, 5, 5, 5]

/-- Lengths with the numbers of their extra bits. The last one has a symbol of its own. -/
def lengths : Array (Nat × Nat) :=
  ((bases 3 lengthExtra).zip lengthExtra ++ [(258, 0)]).toArray

def distanceExtra : List Nat :=
  [0, 0, 0, 0, 1, 1, 2, 2, 3, 3, 4, 4, 5, 5, 6, 6, 7, 7, 8, 8, 9, 9, 10, 10, 11, 11, 12, 12, 13, 13]

def distances : Array (Nat × Nat) := ((bases 1 distanceExtra).zip distanceExtra).toArray

def extended (table : Array (Nat × Nat)) (symbol : Nat) : BitReader Nat := do
  match table[symbol]? with
  | some (base, extra) => return base + (← BitReader.number extra)
  | none => throw .invalid

def code (partly : Bool) (lengths : List Nat) : BitReader PrefixCode :=
  match PrefixCode.ofLengths? partly lengths with
  | some c => pure c
  | none => throw .invalid

/-- The code words that need not be told. -/
def fixed : BitReader Block := do
  let literals ← code true
    (List.replicate 144 8 ++ List.replicate 112 9 ++ List.replicate 24 7 ++ List.replicate 8 8)
  return .coded literals (← code true (List.replicate 32 5))

/-- The order in which the lengths of the code words for lengths are told. -/
def order : List Nat := [16, 17, 18, 0, 8, 7, 9, 6, 10, 5, 11, 4, 12, 3, 13, 2, 14, 1, 15]

/-- Reads the next symbol of lengths. Without any code words each bit tells a zero. -/
def lengthSymbol (c : PrefixCode) : BitReader Nat :=
  if c.symbols.isEmpty then do
    let _ ← BitReader.bit
    return 0
  else c.decode

/-- What a symbol of lengths adds: itself, the last one again, or zeros. -/
def added (symbol : Nat) (last : Option Nat) : BitReader (List Nat) := do
  if symbol < 16 then return [symbol]
  else if symbol = 16 then
    let count := 3 + (← BitReader.number 2)
    match last with
    | some l => return List.replicate count l
    | none => throw .invalid
  else if symbol = 17 then return List.replicate (3 + (← BitReader.number 3)) 0
  else return List.replicate (11 + (← BitReader.number 7)) 0

def codeLengths (c : PrefixCode) (total : Nat) : (fuel : Nat) → (done : List Nat) →
    BitReader (List Nat)
  | 0, _ => throw .invalid
  | fuel + 1, done => do
    if total ≤ done.length then return done.reverse
    let more ← added (← lengthSymbol c) done.head?
    if total < done.length + more.length then throw .invalid
    codeLengths c total fuel (more.reverse ++ done)

/-- The code words that are told at the start of a block: at most 286 for literals and lengths, of
which the one that ends the block must be there, and 30 for distances. -/
def told : BitReader Block := do
  let literalCount := 257 + (← BitReader.number 5)
  let distanceCount := 1 + (← BitReader.number 5)
  let orderCount := 4 + (← BitReader.number 4)
  if 286 < literalCount || 30 < distanceCount then throw .invalid
  let ordered ← (List.range orderCount).mapM fun _ => BitReader.number 3
  let found := order.zip ordered
  let plain := (List.range 19).map fun symbol => (found.lookup symbol).getD 0
  let lengthCode ← if plain.all (· = 0) then pure ⟨[], #[]⟩ else code false plain
  let total := literalCount + distanceCount
  let all ← codeLengths lengthCode total (total + 1) []
  let (literals, distances) := all.splitAt literalCount
  if literals.getD 256 0 = 0 then throw .invalid
  return .coded (← code true literals) (← code true distances)

def header : BitReader (Bool × Block) := do
  let isLast := (← BitReader.bit) = 1
  let kind ← BitReader.number 2
  if kind = 0 then
    BitReader.align
    let length ← BitReader.number 16
    let complement ← BitReader.number 16
    if length + complement = 65535 then return (isLast, .stored length) else throw .invalid
  else if kind = 1 then return (isLast, ← fixed)
  else if kind = 2 then return (isLast, ← told)
  else throw .invalid

def element (literals distanceCode : PrefixCode) : BitReader (Option Pending) := do
  let symbol ← literals.decode
  if symbol < 256 then return some (.literal (.ofNat symbol))
  else if symbol = 256 then return none
  else
    let length ← extended lengths (symbol - 257)
    let distance ← extended distances (← distanceCode.decode)
    return some (.copy length distance)

def advance (m : Inflater) : Except Stop Inflater := do
  match m.block with
  | .border =>
    if m.isLast then
      let ((), source) ← BitReader.align.run m.source
      return { m with source, isDone := true }
    else
      let ((isLast, block), source) ← header.run m.source
      return { m with source, isLast, block }
  | .stored 0 => return { m with block := .border }
  | .stored (left + 1) =>
    let (b, source) ← BitReader.byte.run m.source
    return { m with source, block := .stored left, pending := .literal b }
  | .coded literals distances =>
    let (e, source) ← (element literals distances).run m.source
    match e with
    | some pending => return { m with source, pending }
    | none => return { m with source, block := .border }

/-- Puts out a byte. None can be repeated from before the start. -/
def put (m : Inflater) : Except Stop Inflater :=
  match m.pending with
  | .nothing => .ok m
  | .literal b => .ok { m with output := m.output.push b, pending := .nothing }
  | .copy length distance =>
    match m.output[m.output.size - distance]? with
    | none => .error .invalid
    | some b =>
      if m.output.size < distance then .error .invalid
      else .ok { m with
        output := m.output.push b
        pending := if length ≤ 1 then .nothing else .copy (length - 1) distance }

def fill : (fuel room : Nat) → Inflater → Except Stop Inflater
  | 0, _, m => .ok m
  | fuel + 1, room, m =>
    if m.isDone then .ok m
    else match m.pending with
      | .nothing =>
        match m.advance with
        | .ok m => fill fuel room m
        | .error .starved => .ok m
        | .error .invalid => .error .invalid
      | _ =>
        if room = 0 then .ok m
        else match m.put with
          | .ok m => fill fuel (room - 1) m
          | .error e => .error e

def portion : Nat := 8192

/-- Decompresses a portion. Gives what is put out and the bytes that were not needed; those of a
part that is not complete yet are kept. -/
def inflate (m : Inflater) (bytes : List UInt8) :
    Except Stop (Inflater × List UInt8 × List UInt8) := do
  let m' := { m with source := { m.source with bytes := m.source.bytes ++ bytes } }
  let m' ← m'.fill (16 * (m'.source.bytes.length + 2) + portion) portion
  let out := (m'.output.extract m.output.size m'.output.size).toList
  let isWaiting := match m'.pending with
    | .nothing => !m'.isDone
    | _ => false
  if isWaiting then return (m', out, [])
  else return ({ m' with source := { m'.source with bytes := [] } }, out, m'.source.bytes)

end Inflater

end MaxEnt.Gzip
