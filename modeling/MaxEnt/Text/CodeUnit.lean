import MaxEnt.Text.Basic

namespace MaxEnt

/-- A 16-bit unit. Two of them, a high and a low surrogate, stand for a code point above `U+FFFF`. -/
abbrev CodeUnit := Fin 0x10000

namespace CodePoint

def units (c : CodePoint) : List CodeUnit :=
  if h : c.val < 0x10000 then [⟨c.val, h⟩]
  else [⟨0xD800 + (c.val - 0x10000) / 1024, by omega⟩, ⟨0xDC00 + (c.val - 0x10000) % 1024, by omega⟩]

def ofUnit (u : CodeUnit) : CodePoint := ⟨u.val, by omega⟩

def ofPair (high low : CodePoint) : CodePoint :=
  Fin.ofNat 0x110000 (0x10000 + (high.val - 0xD800) * 1024 + (low.val - 0xDC00))

end CodePoint

namespace Text

def units (t : Text) : List CodeUnit := t.flatMap CodePoint.units

def consJoined (c : CodePoint) : Text → Text
  | [] => [c]
  | d :: t => if c.isHighSurrogate && d.isLowSurrogate then CodePoint.ofPair c d :: t else c :: d :: t

/-- Every high surrogate that a low one follows becomes, with it, the code point they stand for. -/
def joinSurrogates (t : Text) : Text := t.foldr consJoined []

def ofUnits (us : List CodeUnit) : Text := joinSurrogates (us.map CodePoint.ofUnit)

end Text

end MaxEnt
