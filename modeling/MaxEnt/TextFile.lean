import MaxEnt.Text.Utf8

namespace MaxEnt

/-- The lines of a text, without what ends them, and whether bytes that are not UTF-8 keep the
reader from the rest. -/
structure Lines where
  read : List Text
  undecodable : Bool

namespace Lines

def ofText (t : Text) : Lines := ⟨t.lines, false⟩

/-- The lines of the beginning of a text that cannot grow: neither one without an end nor one whose
carriage return a line feed may follow. -/
def finished (t : Text) : List Text :=
  let t := if t.getLast? = some ↑ '\r' then t.dropLast else t
  ((Text.unifyNewlines t).splitOn '\n').dropLast

def portion : Nat := 8192

/-- What is seen of a file before a byte that is wrong, behind which so many follow: the lines that
are finished in the portions before. -/
def beforeFault (bytes : List UInt8) (after : Nat) : List Text :=
  let seen := bytes.take ((bytes.length - after - 1) / portion * portion)
  finished (Utf8.decodeUpToFault seen).1

/-- The lines of a file in UTF-8. A line feed, a carriage return or both end a line. -/
def ofBytes (bytes : List UInt8) : Lines :=
  match Utf8.decodeUpToFault bytes with
  | (t, .complete) => ⟨(Text.unifyNewlines t).lines, false⟩
  | (t, .truncated) => ⟨finished t, true⟩
  | (_, .malformed after) => ⟨beforeFault bytes after, true⟩

def ofBeginning (bytes : List UInt8) : Lines :=
  match Utf8.decodeUpToFault bytes with
  | (_, .malformed after) => ⟨beforeFault bytes after, true⟩
  | (t, _) => ⟨finished t, false⟩

end Lines

end MaxEnt
