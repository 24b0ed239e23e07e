import MaxEnt.Codec.PlainText
import MaxEnt.Proofs.Codec.RoundTrip
import MaxEnt.Proofs.Model.Mapped
import MaxEnt.Proofs.Numeral.Real
import MaxEnt.Proofs.Text.Lines

namespace MaxEnt

namespace PlainText

def OneLine (t : Text) : Prop := ∀ c ∈ t, isLineBreak c = false

instance (t : Text) : Decidable (OneLine t) :=
  decidable_of_iff (t.any isLineBreak = false) (by simp [OneLine])

namespace OneLine

variable {t : Text}

theorem feed_not_mem (h : OneLine t) : ↑ '\n' ∉ t := fun hm => absurd (h _ hm) (by decide)

theorem return_not_mem (h : OneLine t) : ↑ '\r' ∉ t := fun hm => absurd (h _ hm) (by decide)

theorem of_ascii (h : t.Ascii) : OneLine t := by
  intro c hc
  have hfeed : ¬ c = ↑ '\n' := fun he => h.not_mem (by decide) (he ▸ hc)
  have hreturn : ¬ c = ↑ '\r' := fun he => h.not_mem (by decide) (he ▸ hc)
  simp [isLineBreak, hfeed, hreturn]

end OneLine

def line : Field → Text
  | .utf value => value
  | .int value => Numeral.ofInt value
  | .double value => Numeral.ofReal value

theorem encode_of_oneLine {f : Field} (h : OneLine (line f)) :
    encode f = .ok (line f ++ ↑ "\n") := by
  cases f with
  | utf value =>
    have hbreak : ¬ value.any isLineBreak = true := by simpa [line, OneLine] using h
    exact if_neg hbreak
  | int value => rfl
  | double value => rfl

theorem oneLine_of_encode {f : Field} {part : Text} (h : encode f = .ok part) : OneLine (line f) := by
  cases f with
  | utf value =>
    rw [encode] at h
    split at h
    · cases h
    · rename_i hbreak
      simpa [line, OneLine] using hbreak
  | int value => exact .of_ascii (Numeral.ascii_ofInt value)
  | double value => exact .of_ascii (Numeral.ascii_ofReal value)

theorem written_persist {m : Model Binary64} (h : ∀ f ∈ m.fields, OneLine (line f)) (owned : Bool) :
    ((Output.writer encode owned).persist m .empty).1.written = Text.ended (m.fields.map line) := by
  rw [Output.written_persist_of_ok (fun f hf => encode_of_oneLine (h f hf)) owned, Text.ended,
    List.flatMap_map]

theorem written_of_persist {m : Model Binary64} {owned : Bool} {o : Output CodePoint}
    (h : (Output.writer encode owned).persist m .empty = (o, none)) :
    (∀ f ∈ m.fields, OneLine (line f)) ∧ o.written = Text.ended (m.fields.map line) := by
  have hencoded := Output.persist_snd_eq_none_iff.1 (congrArg Prod.snd h)
  have hlines : ∀ f ∈ m.fields, OneLine (line f) :=
    fun f hf => oneLine_of_encode (hencoded f hf).choose_spec
  have hwritten := written_persist hlines owned
  rw [h] at hwritten
  exact ⟨hlines, hwritten⟩

theorem utf_run (l : Text) (ls : List Text) (undecodable : Bool) :
    utf.run ⟨l :: ls, undecodable⟩ = (.ok l, ⟨ls, undecodable⟩) := rfl

def Fits : Field → Prop
  | .int value => value.natAbs < 10 ^ Numeral.maxDigits
  | _ => True

theorem takes_line {f : Field} (h : Fits f) (ls : List Text) (undecodable : Bool) :
    reader.Takes ⟨line f :: ls, undecodable⟩ (f.map Binary64.canonical) ⟨ls, undecodable⟩ := by
  cases f with
  | utf value => rfl
  | int value =>
    have hread : Numeral.integer? (Numeral.ofInt value) = some value := Numeral.integer?_ofInt_of_lt h
    change int.run _ = _
    rw [int, Reading.run_bind_of_ok (utf_run _ ls undecodable), line, hread]
    rfl
  | double value =>
    have hread : Numeral.real? (Numeral.ofReal value) = some value.canonical :=
      Numeral.real?_ofReal value
    change double.run _ = _
    rw [double, Reading.run_bind_of_ok (utf_run _ ls undecodable), line, hread]
    rfl

theorem takesAll_lines {fs : List Field} (h : ∀ f ∈ fs, Fits f) (ls : List Text)
    (undecodable : Bool) :
    reader.TakesAll ⟨fs.map line ++ ls, undecodable⟩ (fs.map (Field.map Binary64.canonical))
      ⟨ls, undecodable⟩ := by
  induction fs with
  | nil => rfl
  | cons f fs ih =>
    exact ⟨⟨fs.map line ++ ls, undecodable⟩, takes_line (h f (by simp)) _ _,
      ih fun g hg => h g (List.mem_cons_of_mem f hg)⟩

end PlainText

namespace Model

def EveryText (P : Text → Prop) (m : Model Binary64) : Prop :=
  (∀ label ∈ m.labels, P label) ∧ ∀ name ∈ m.predicates.keys, P name

instance (P : Text → Prop) [DecidablePred P] (m : Model Binary64) : Decidable (m.EveryText P) :=
  inferInstanceAs (Decidable (_ ∧ _))

theorem forall_line_iff {P : Text → Prop} (hascii : ∀ t : Text, t.Ascii → P t) (m : Model Binary64) :
    (∀ f ∈ m.fields, P (PlainText.line f)) ↔ m.EveryText P := by
  constructor
  · intro h
    exact ⟨fun label hl => h _ (label_mem_fields hl), fun name hn => h _ (name_mem_fields hn)⟩
  · rintro ⟨hlabels, hnames⟩
    have hint : ∀ n : Int, P (PlainText.line (.int n)) := fun n => hascii _ (Numeral.ascii_ofInt n)
    exact field_cases (hascii _ (by decide)) (hint 1) (fun x => hascii _ (Numeral.ascii_ofReal x))
      (hint _) hlabels (hint _) (fun g _ => hascii _ g.ascii_token) (hint _)
      fun p hp => hnames _ (name_mem_keys hp)

/-- The model that is told by the text of `m`: the same labels and outcomes, and parameters of which
those that are not a number are all alike. -/
def ReadAs (m n : Model Binary64) : Prop :=
  n.labels = m.labels ∧
    ∀ name, n.predicates.get? name = (m.predicates.get? name).map (·.map Binary64.canonical)

end Model

namespace PlainText

theorem fits_fields {m : Model Binary64} (hlabels : m.labels.length < 10 ^ Numeral.maxDigits)
    (hpredicates : m.predicates.size < 10 ^ Numeral.maxDigits) : ∀ f ∈ m.fields, Fits f := by
  have hint : ∀ n : Nat, n < 10 ^ Numeral.maxDigits → Fits (.int n) := fun n hn => hn
  exact Model.field_cases trivial (hint 1 (Nat.one_lt_pow (by decide) (by decide)))
    (fun _ => trivial) (hint _ hlabels) (fun _ _ => trivial) (hint _ (m.length_groups_le.trans_lt hpredicates))
    (fun _ _ => trivial) (hint _ (m.length_sorted ▸ hpredicates)) fun _ _ => trivial

theorem model_run_lines {m : Model Binary64} (hlabels : m.labels.length < 10 ^ Numeral.maxDigits)
    (hpredicates : m.predicates.size < 10 ^ Numeral.maxDigits) (ls : List Text) (undecodable : Bool) :
    ∃ n, reader.model.run ⟨m.fields.map line ++ ls, undecodable⟩ = (.ok n, ⟨ls, undecodable⟩) ∧
      m.ReadAs n := by
  have htakes := takesAll_lines (fits_fields hlabels hpredicates) ls undecodable
  rw [← m.fields_map Binary64.canonical (by decide)] at htakes
  have hsize : (m.map Binary64.canonical).predicates.size = m.predicates.size := List.length_map _
  obtain ⟨n, hn, hnlabels, hentries⟩ := Reader.model_run (m := m.map Binary64.canonical) hlabels
    (hsize.symm ▸ hpredicates) htakes
  refine ⟨n, hn, hnlabels, fun name => ?_⟩
  rw [Table.get?_eq_of_perm hentries]
  exact Table.get?_map _ _ _

/-- A model is written as text if and only if no label and no name has a line break. What is written
is read as the model, no matter whether line feeds alone end a line or the text is kept in a file.
Lists have fewer items than a numeral that is read can tell. -/
theorem read_persisted_text (m : Model Binary64)
    (hlabels : m.labels.length < 10 ^ Numeral.maxDigits)
    (hpredicates : m.predicates.size < 10 ^ Numeral.maxDigits) :
    (((Output.writer encode false).persist m .empty).2 = none ↔ m.EveryText OneLine) ∧
      (m.EveryText OneLine →
        ∃ o, (Output.writer encode false).persist m .empty = (o, none) ∧ o.isOpen = true ∧
          (∃ n, reader.model.run (.ofText o.written) = (.ok n, ⟨[], false⟩) ∧ m.ReadAs n) ∧
          (m.EveryText (fun t => t.hasSurrogate = false) →
            ∃ bytes, Utf8.encode o.written = some bytes ∧
              ∃ n, reader.model.run (.ofBytes bytes) = (.ok n, ⟨[], false⟩) ∧ m.ReadAs n)) := by
  have hlines := Model.forall_line_iff (fun _ => OneLine.of_ascii) m
  refine ⟨?_, fun hone => ?_⟩
  · rw [Output.persist_snd_eq_none_iff, ← hlines]
    refine forall₂_congr fun f _ => ⟨fun ⟨part, h⟩ => oneLine_of_encode h, fun h => ?_⟩
    exact ⟨_, encode_of_oneLine h⟩
  · have hlines := hlines.2 hone
    obtain ⟨o, ho, hopen, hwritten⟩ :=
      Output.persist_of_ok fun f hf => encode_of_oneLine (hlines f hf)
    have hended : o.written = Text.ended (m.fields.map line) := by
      rw [hwritten, Text.ended, List.flatMap_map]
    have hfeed : ∀ l ∈ m.fields.map line, ↑ '\n' ∉ l :=
      List.forall_mem_map.2 fun f hf => (hlines f hf).feed_not_mem
    have hreturn : ∀ l ∈ m.fields.map line, ↑ '\r' ∉ l :=
      List.forall_mem_map.2 fun f hf => (hlines f hf).return_not_mem
    obtain ⟨n, hn, hread⟩ := model_run_lines hlabels hpredicates [] false
    rw [List.append_nil] at hn
    refine ⟨o, ho, hopen, ⟨n, ?_, hread⟩, fun hsurrogate => ?_⟩
    · rw [hended, Lines.ofText_ended hfeed, hn]
    · have hlines := (Model.forall_line_iff (fun _ h => h.hasSurrogate) m).2 hsurrogate
      obtain ⟨bytes, hbytes, hfile⟩ :=
        Lines.ofBytes_ended hfeed hreturn (List.forall_mem_map.2 hlines)
      refine ⟨bytes, hended ▸ hbytes, n, ?_, hread⟩
      rw [hfile, hn]

/-- A model whose labels and names are empty, blank, like numbers or like tokens, or separate lines
elsewhere, with a parameter that is not a number. -/
def oddModel : Model Binary64 where
  labels := [[], " ", [0x2028]]
  predicates := .ofList [("2 0 1", ⟨[(0, .one), (2, .notANumber true)]⟩), ("0.5 ", ⟨[]⟩),
    ([0x85], ⟨[(1, .infinity true), (1, .zero)]⟩)]
  two_le := by decide
  labels_nodup := by decide
  inRange := by decide

theorem read_persisted_text_oddModel :
    ((Output.writer encode false).persist oddModel .empty).2 = none ∧
      ∃ o, (Output.writer encode false).persist oddModel .empty = (o, none) ∧ o.isOpen = true ∧
        (∃ n, reader.model.run (.ofText o.written) = (.ok n, ⟨[], false⟩) ∧ oddModel.ReadAs n) ∧
        ∃ bytes, Utf8.encode o.written = some bytes ∧
          ∃ n, reader.model.run (.ofBytes bytes) = (.ok n, ⟨[], false⟩) ∧ oddModel.ReadAs n := by
  have hone : oddModel.EveryText OneLine := by decide
  have hsurrogate : oddModel.EveryText fun t => t.hasSurrogate = false := by decide
  obtain ⟨hwritten, hread⟩ := read_persisted_text oddModel (Numeral.lt_pow_maxDigits (by decide))
    (Numeral.lt_pow_maxDigits (by decide))
  obtain ⟨o, ho, hopen, htext, hfile⟩ := hread hone
  exact ⟨hwritten.2 hone, o, ho, hopen, htext, hfile hsurrogate⟩

end PlainText

end MaxEnt
