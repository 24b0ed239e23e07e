import MaxEnt.Proofs.Codec.Binary
import MaxEnt.Proofs.Codec.Writing
import MaxEnt.Proofs.Text.Surrogates

namespace MaxEnt

/-- Writes one field after another, whatever became of those before, and tells of each why it failed
if it did. -/
def Writer.tryAll {σ ε : Type} (w : Writer σ ε) : List Field → σ → σ × List (Option ε)
  | [], s => (s, [])
  | f :: fs, s =>
    let (t, e) := w.putAll [f] s
    let (u, es) := tryAll w fs t
    (u, e :: es)

/-- The second field is the first with the pairs of surrogates in it joined, if it is a string. -/
inductive Field.Joins : Field → Field → Prop
  | utf {t u : Text} (h : ModifiedUtf8.Joins t u) : Joins (.utf t) (.utf u)
  | int (n : Int) : Joins (.int n) (.int n)
  | double (x : Binary64) : Joins (.double x) (.double x)

namespace Binary

/-- Why a field has no place on a stream: two bytes do not count the bytes of the string, or four do
not hold the integer. -/
def refusal? : Field → Option WriteError
  | .utf value =>
    let bytes := (ModifiedUtf8.encode value).length
    if 65535 < bytes then some (.tooLong bytes) else none
  | .int value => if -2 ^ 31 ≤ value ∧ value < 2 ^ 31 then none else some (.tooLarge value)
  | .double _ => none

theorem encode_of_refused {f : Field} {e : WriteError} (h : refusal? f = some e) :
    encode f = .error e := by
  cases f with
  | utf value =>
    simp only [refusal?] at h
    split at h
    · rename_i hlong
      rw [encode, if_neg (by rw [maxStringBytes]; omega), ← Option.some.inj h]
    · cases h
  | int value =>
    simp only [refusal?] at h
    split at h
    · cases h
    · rename_i hrange
      rw [encode, if_neg (by simp only [fitsInt, Bool.and_eq_true, decide_eq_true_eq]; omega),
        ← Option.some.inj h]
  | double value => cases h

theorem fits_of_not_refused {f : Field} (h : refusal? f = none) : Fits f := by
  cases f with
  | utf value =>
    simp only [refusal?] at h
    split at h
    · cases h
    · exact Nat.not_lt.1 (by assumption)
  | int value =>
    simp only [refusal?] at h
    split at h
    · simp only [Fits, fitsInt, Bool.and_eq_true, decide_eq_true_eq]
      omega
    · cases h
  | double value => trivial

theorem joins_joined (f : Field) : f.Joins (joined f) := by
  cases f with
  | utf value => exact .utf (ModifiedUtf8.joins_joinSurrogates value)
  | int value => exact .int value
  | double value => exact .double value

variable (owned : Bool)

theorem putAll_of_refused {f : Field} {e : WriteError} (h : refusal? f = some e)
    (o : Output UInt8) : (Output.writer encode owned).putAll [f] o = (o, some e) := by
  rw [Writer.putAll, Output.put_of_error (encode_of_refused h)]

theorem putAll_of_not_refused {f : Field} (h : refusal? f = none) (o : Output UInt8) :
    (Output.writer encode owned).putAll [f] o = ({ o with parts := bytes f :: o.parts }, none) := by
  rw [Writer.putAll, Output.put_of_ok (encode_of_fits (fits_of_not_refused h))]
  rfl

def accepted (fs : List Field) : List Field := fs.filter fun f => (refusal? f).isNone

theorem tryAll_eq (fs : List Field) (o : Output UInt8) :
    (Output.writer encode owned).tryAll fs o =
      (⟨((accepted fs).map bytes).reverse ++ o.parts, o.isOpen⟩, fs.map refusal?) := by
  induction fs generalizing o with
  | nil => rfl
  | cons f fs ih =>
    cases h : refusal? f with
    | some e =>
      have haccepted : accepted (f :: fs) = accepted fs := by simp [accepted, h]
      simp only [Writer.tryAll, putAll_of_refused owned h, ih, List.map_cons, h, haccepted]
    | none =>
      have haccepted : accepted (f :: fs) = f :: accepted fs := by simp [accepted, h]
      simp only [Writer.tryAll, putAll_of_not_refused owned h, ih, List.map_cons, h, haccepted,
        List.reverse_cons, List.append_assoc, List.singleton_append]

/-- A field is refused where it has no place on the stream, and the stream stays as it is. Those that
are written are read back one after the other, whatever stands behind them. -/
theorem takesAll_tryAll (fs : List Field) (o : Output UInt8) :
    ((Output.writer encode owned).tryAll fs o).2 = fs.map refusal? ∧
      (∀ before f, before ++ [f] <+: fs → (refusal? f).isSome = true →
        ((Output.writer encode owned).tryAll (before ++ [f]) o).1 =
          ((Output.writer encode owned).tryAll before o).1) ∧
      ∃ added read, ((Output.writer encode owned).tryAll fs o).1.written = o.written ++ added ∧
        List.Forall₂ Field.Joins (fs.filter fun f => (refusal? f).isNone) read ∧
        ∀ rest, reader.TakesAll (added ++ rest) read rest := by
  refine ⟨by rw [tryAll_eq], ?_, (accepted fs).flatMap bytes, (accepted fs).map joined, ?_, ?_, ?_⟩
  · intro before f _ hrefused
    have haccepted : accepted (before ++ [f]) = accepted before := by
      rw [accepted, List.filter_append]
      simp [accepted, Option.isSome_iff_ne_none.1 hrefused]
    rw [tryAll_eq, tryAll_eq, haccepted]
  · rw [tryAll_eq]
    simp [Output.written, List.flatMap_def]
  · rw [List.forall₂_map_right_iff]
    exact List.forall₂_same.2 fun f _ => joins_joined f
  · intro rest
    apply takesAll_bytes
    intro f hf
    exact fits_of_not_refused (Option.isNone_iff_eq_none.1 (List.mem_filter.1 hf).2)

/-- The integers at both ends of the range, and one behind each. -/
example : [-2 ^ 31, 2 ^ 31 - 1, -2 ^ 31 - 1, 2 ^ 31].map (fun n => refusal? (.int n)) =
    [none, none, some (.tooLarge (-2147483649)), some (.tooLarge 2147483648)] := by decide

end Binary

end MaxEnt
