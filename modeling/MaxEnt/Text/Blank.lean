import MaxEnt.Text.Basic

namespace MaxEnt

def CodePoint.isBlank (c : CodePoint) : Bool :=
  (9 ≤ c.val && c.val ≤ 13) || (28 ≤ c.val && c.val ≤ 32) || c.val == 0x85 || c.val == 0xA0 ||
    c.val == 0x1680 || (0x2000 ≤ c.val && c.val ≤ 0x200A) || c.val == 0x2028 || c.val == 0x2029 ||
    c.val == 0x202F || c.val == 0x205F || c.val == 0x3000

namespace Text

def isBlank (t : Text) : Bool := t.all CodePoint.isBlank

def strip (t : Text) : Text := trim CodePoint.isBlank t

def stripRight (t : Text) : Text := dropLastWhile CodePoint.isBlank t

def consWord (word : Text) (words : List Text) : List Text :=
  if word.isEmpty then words else word :: words

def words (t : Text) : List Text :=
  let (word, rest) := t.foldr step ([], [])
  consWord word rest
where
  step (c : CodePoint) : Text × List Text → Text × List Text
    | (word, rest) => if c.isBlank then ([], consWord word rest) else (c :: word, rest)

end Text

end MaxEnt
