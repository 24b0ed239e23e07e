import MaxEnt.Codec.Reader
import MaxEnt.Codec.Writer
import MaxEnt.TextFile

namespace MaxEnt.PlainText

def isLineBreak (c : CodePoint) : Bool := c = '\n' || c = '\r'

def encode : Field → Except WriteError Text
  | .utf value => if value.any isLineBreak then .error (.lineBreak value) else .ok (value ++ "\n")
  | .int value => .ok (Numeral.ofInt value ++ "\n")
  | .double value => .ok (Numeral.ofReal value ++ "\n")

def encodeUtf8 (f : Field) : Except WriteError (List UInt8) := do
  match Utf8.encode (← encode f) with
  | some bytes => pure bytes
  | none => throw .surrogate

def utf : Reading Lines Text := fun s =>
  match s.read with
  | line :: rest => (.ok line, { s with read := rest })
  | [] => (.error (if s.undecodable then .undecodable else .endOfData), s)

def int : Reading Lines Int := do
  let line ← utf
  match Numeral.integer? line with
  | some n => pure n
  | none => throw (.noInteger line)

def double : Reading Lines Binary64 := do
  let line ← utf
  match Numeral.real? line with
  | some x => pure x
  | none => throw (.noNumber line)

def reader : Reader Lines := ⟨utf, int, double⟩

end MaxEnt.PlainText
