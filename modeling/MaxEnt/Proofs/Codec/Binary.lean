import MaxEnt.Codec.Binary
import MaxEnt.Proofs.BigEndian
import MaxEnt.Proofs.Codec.Reading
import MaxEnt.Proofs.Text.ModifiedUtf8

namespace MaxEnt.Binary

/-- The string is not too long in modified UTF-8. -/
def FitsString (t : Text) : Prop := (ModifiedUtf8.encode t).length ≤ maxStringBytes

instance (t : Text) : Decidable (FitsString t) :=
  inferInstanceAs (Decidable (_ ≤ maxStringBytes))

def Fits : Field → Prop
  | .utf value => FitsString value
  | .int value => fitsInt value = true
  | .double _ => True

theorem fitsInt_of_lt {n : Nat} (h : n < 2 ^ 31) : fitsInt n = true := by
  simp only [fitsInt, Bool.and_eq_true, decide_eq_true_eq]
  omega

def bytes : Field → List UInt8
  | .utf value =>
    BigEndian.ofNat 2 (ModifiedUtf8.encode value).length ++ ModifiedUtf8.encode value
  | .int value => BigEndian.ofNat 4 (value % 4294967296).toNat
  | .double value => BigEndian.ofNat 8 value.bits.toNat

theorem encode_of_fits {f : Field} (h : Fits f) : encode f = .ok (bytes f) := by
  cases f with
  | utf value => exact if_pos h
  | int value => exact if_pos h
  | double value => rfl

theorem fits_of_encode {f : Field} {part : List UInt8} (h : encode f = .ok part) : Fits f := by
  cases f with
  | utf value =>
    rw [encode] at h
    split at h
    · assumption
    · cases h
  | int value =>
    rw [encode] at h
    split at h
    · assumption
    · cases h
  | double value => trivial

theorem run_take (count : Nat) (s : List UInt8) :
    (take count).run s =
      if (s.take count).length < count then (.error .endOfData, []) else (.ok (s.take count), s.drop count) :=
  rfl

theorem take_run (front rest : List UInt8) :
    (take front.length).run (front ++ rest) = (.ok front, rest) := by
  rw [run_take]
  simp

theorem take_run_of_length {count : Nat} {front : List UInt8} (h : front.length = count)
    (rest : List UInt8) : (take count).run (front ++ rest) = (.ok front, rest) := by
  rw [← h, take_run]

theorem utf_run {value : Text} (h : FitsString value) (rest : List UInt8) :
    utf.run (bytes (.utf value) ++ rest) = (.ok (Text.joinSurrogates value), rest) := by
  have hlt : (ModifiedUtf8.encode value).length < 256 ^ 2 := Nat.lt_succ_of_le h
  have hlength : BigEndian.toNat (BigEndian.ofNat 2 (ModifiedUtf8.encode value).length) =
      (ModifiedUtf8.encode value).length := by
    rw [BigEndian.toNat_ofNat, Nat.mod_eq_of_lt hlt]
  rw [bytes, List.append_assoc, utf,
    Reading.run_bind_of_ok (take_run_of_length (BigEndian.length_ofNat 2 _) _), hlength,
    Reading.run_bind_of_ok (take_run _ rest), ModifiedUtf8.decode_encode]
  rfl

theorem signed_ofNat {n : Int} (h : fitsInt n = true) :
    signed (BigEndian.ofNat 4 (n % 4294967296).toNat) = n := by
  simp only [fitsInt, Bool.and_eq_true, decide_eq_true_eq] at h
  have hlt : (n % 4294967296).toNat < 256 ^ 4 := by omega
  rw [signed, BigEndian.toNat_ofNat, Nat.mod_eq_of_lt hlt]
  split <;> omega

theorem int_run {value : Int} (h : fitsInt value = true) (rest : List UInt8) :
    int.run (bytes (.int value) ++ rest) = (.ok value, rest) := by
  rw [bytes, int, Reading.run_bind_of_ok (take_run_of_length (BigEndian.length_ofNat 4 _) _),
    signed_ofNat h]
  rfl

theorem double_run (value : Binary64) (rest : List UInt8) :
    double.run (bytes (.double value) ++ rest) = (.ok value, rest) := by
  have hlt : value.bits.toNat < 256 ^ 8 := value.bits.toNat_lt
  rw [bytes, double, Reading.run_bind_of_ok (take_run_of_length (BigEndian.length_ofNat 8 _) _),
    BigEndian.toNat_ofNat, Nat.mod_eq_of_lt hlt, UInt64.ofNat_toNat]
  rfl

/-- What a field is when it is read back: a pair of surrogates in it is joined. -/
def joined : Field → Field
  | .utf value => .utf (Text.joinSurrogates value)
  | .int value => .int value
  | .double value => .double value

theorem takes_bytes {f : Field} (h : Fits f) (rest : List UInt8) :
    reader.Takes (bytes f ++ rest) (joined f) rest := by
  cases f with
  | utf value => exact utf_run h rest
  | int value => exact int_run h rest
  | double value => exact double_run value rest

theorem takesAll_bytes {fs : List Field} (h : ∀ f ∈ fs, Fits f) (rest : List UInt8) :
    reader.TakesAll (fs.flatMap bytes ++ rest) (fs.map joined) rest := by
  induction fs with
  | nil => rfl
  | cons f fs ih =>
    refine ⟨fs.flatMap bytes ++ rest, ?_, ih fun g hg => h g (List.mem_cons_of_mem f hg)⟩
    rw [List.flatMap_cons, List.append_assoc]
    exact takes_bytes (h f (by simp)) _

end MaxEnt.Binary
