import MaxEnt.Gzip.Basic
import MaxEnt.Model.Basic
import MaxEnt.Text.Quoted

namespace MaxEnt

inductive WriteError where
  | tooLong (bytes : Nat)
  | lineBreak (value : Text)
  | tooLarge (value : Int)
  /-- The text has a surrogate and the file keeps UTF-8. -/
  | surrogate
  deriving DecidableEq

def maxStringBytes : Nat := 0xFFFF

namespace WriteError

def message : WriteError → Text
  | tooLong bytes =>
    Text.concat ["Encoded string too long: ", Numeral.ofNat bytes, " bytes (max ",
      Numeral.ofNat maxStringBytes, ")"]
  | lineBreak value => "Line breaks cannot be written in a text model: " ++ value.quoted
  | tooLarge value => "Integer out of range: " ++ Numeral.ofInt value
  | surrogate => "Surrogates cannot be encoded"

end WriteError

inductive ReadError where
  | endOfData
  | malformedString (place : Nat)
  | noInteger (line : Text)
  | noNumber (line : Text)
  | otherTag (tag : Text)
  | noPattern (token : Text)
  | negativeCount (count : Int)
  | unevenCount (covered names : Nat)
  | invalidModel (cause : ModelError)
  /-- The patterns cover a number of predicates that has too many digits to be told. -/
  | hugeCount
  | undecodable
  /-- The file's name says that it is compressed, and its bytes do not give more. -/
  | damaged (fault : Gzip.Fault)
  deriving DecidableEq

namespace ReadError

def message : ReadError → Text
  | endOfData => "Unexpected end of model data"
  | malformedString place => "Malformed modified UTF-8 at byte " ++ Numeral.ofNat place
  | noInteger line => Text.concat ["Expected an integer, found '", line, "'"]
  | noNumber line => Text.concat ["Expected a number, found '", line, "'"]
  | otherTag tag => Text.concat ["Not a GIS model: type is '", tag, "'"]
  | noPattern token => Text.concat ["Invalid outcome pattern: '", token, "'"]
  | negativeCount count => "Negative count in model data: " ++ Numeral.ofInt count
  | unevenCount covered names =>
    Text.concat ["Outcome patterns cover ", Numeral.ofNat covered,
      " predicates but the model has ", Numeral.ofNat names]
  | invalidModel cause => "Invalid model: " ++ cause.message
  | hugeCount => "Outcome patterns cover too many predicates"
  | undecodable => "Not a text in UTF-8"
  | damaged _ => "Not a sound compressed file"

end ReadError

end MaxEnt
