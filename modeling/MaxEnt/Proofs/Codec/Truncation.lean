import MaxEnt.Proofs.Codec.Cutting
import MaxEnt.Proofs.Codec.PlainText

namespace MaxEnt

open Reader

namespace Binary

theorem take_fails {count : Nat} {s : List UInt8} (h : s.length < count) : Fails (take count) s := by
  refine ⟨.endOfData, [], ?_, trivial⟩
  rw [run_take, if_pos]
  exact (List.length_take_le' count s).trans_lt h

theorem joined_eq_alter : joined = Field.alter Text.joinSurrogates id := by
  funext f
  cases f <;> rfl

theorem lacks_bytes {f : Field} (hf : Fits f) {p : List UInt8} (hp : p <+: bytes f)
    (hne : p ≠ bytes f) (more : Prop) : reader.Lacks more p (joined f) := by
  have hlt : p.length < (bytes f).length :=
    hp.length_le.lt_of_ne fun he => hne (hp.eq_of_length he)
  cases f with
  | utf value =>
    have hlength : (ModifiedUtf8.encode value).length < 256 ^ 2 := Nat.lt_succ_of_le hf
    obtain ⟨hfront, hproper⟩ | ⟨q, rfl, hq⟩ := prefix_append_cases hp
    · have hshort := hfront.length_le.lt_of_ne fun he => hproper (hfront.eq_of_length he)
      rw [BigEndian.length_ofNat] at hshort
      exact .inl (take_fails hshort).bind
    · have hshort : q.length < (ModifiedUtf8.encode value).length := by
        refine hq.length_le.lt_of_ne fun he => hne ?_
        rw [hq.eq_of_length he, bytes]
      refine .inl (Fails.bind_of_ok ?_ (take_run_of_length (BigEndian.length_ofNat 2 _) q))
      rw [BigEndian.toNat_ofNat, Nat.mod_eq_of_lt hlength]
      exact (take_fails hshort).bind
  | int value =>
    rw [bytes, BigEndian.length_ofNat] at hlt
    exact .inl (take_fails hlt).bind
  | double value =>
    rw [bytes, BigEndian.length_ofNat] at hlt
    exact .inl (take_fails hlt).bind

theorem cut_bytes {fs : List Field} (h : ∀ f ∈ fs, Fits f) {p : List UInt8}
    (hp : p <+: fs.flatMap bytes) (hne : p ≠ fs.flatMap bytes) (more : Prop) :
    reader.Cut more p (fs.map joined) := by
  induction fs generalizing p with
  | nil => exact absurd (List.prefix_nil.1 hp) hne
  | cons f fs ih =>
    rw [List.flatMap_cons] at hp hne
    obtain ⟨hp, hproper⟩ | ⟨q, rfl, hq⟩ := prefix_append_cases hp
    · exact .inl (lacks_bytes (h f (by simp)) hp hproper _)
    · refine .inr ⟨q, takes_bytes (h f (by simp)) q, ?_⟩
      exact ih (fun g hg => h g (List.mem_cons_of_mem f hg)) hq fun he => hne (he ▸ rfl)

/-- Wherever the bytes of a model are cut, what is left is told to be no model. -/
theorem read_truncated (m : Model Binary64) (owned : Bool) (o : Output UInt8)
    (hwrite : (Output.writer encode owned).persist m .empty = (o, none)) (p : List UInt8)
    (hp : p <+: o.written) (hne : p ≠ o.written) :
    ∃ e rest, reader.model.run p = (.error e, rest) ∧ e.IsFormat := by
  obtain ⟨hfits, hwritten⟩ := written_of_persist hwrite
  rw [hwritten] at hp hne
  have hcut := cut_bytes hfits.fields hp hne False
  rw [joined_eq_alter] at hcut
  exact Model.model_fails hfits.labelCount_lt hfits.predicateCount_lt (by decide)
    (fun g _ => ModifiedUtf8.joinSurrogates_of_unpaired g.unpaired_token) hcut

theorem read_truncated_mixedModel : ∃ o,
    (Output.writer encode false).persist mixedModel .empty = (o, none) ∧
      [0, 3, 71, 73] <+: o.written ∧ [0, 3, 71, 73] ≠ o.written ∧
      ∃ e rest, reader.model.run [0, 3, 71, 73] = (.error e, rest) ∧ e.IsFormat := by
  obtain ⟨o, ho, -, hwritten⟩ :=
    Output.persist_of_ok fun f hf => encode_of_fits (fitsBinary_mixedModel.fields f hf)
  have htag : bytes (.utf Model.tag) = [0, 3, 71, 73, 83] := by decide
  have hfront : ∃ rest, o.written = [0, 3, 71, 73, 83] ++ rest := by
    rw [hwritten, ← htag]
    exact ⟨_, rfl⟩
  obtain ⟨rest, hrest⟩ := hfront
  have hprefix : [0, 3, 71, 73] <+: o.written := ⟨83 :: rest, hrest.symm⟩
  have hne : [0, 3, 71, 73] ≠ o.written := by
    rw [hrest]
    simp
  exact ⟨o, ho, hprefix, hne, read_truncated mixedModel false o ho _ hprefix hne⟩

end Binary

namespace PlainText

theorem ended_nil : reader.Ended ⟨[], false⟩ := by
  have hutf : Fails utf ⟨[], false⟩ := ⟨.endOfData, _, rfl, trivial⟩
  exact ⟨hutf, hutf.bind, hutf.bind⟩

theorem lacks_nil (f : Field) (more : Prop) : reader.Lacks more ⟨[], false⟩ f := by
  cases f with
  | utf value => exact .inl ended_nil.utf
  | int value => exact .inl ended_nil.int
  | double value => exact .inl ended_nil.double

/-- A last line may be read as a field; but then there is nothing behind it. -/
theorem lacks_line {more : Prop} (hmore : more) (l : Text) (f : Field) :
    reader.Lacks more ⟨[l], false⟩ f := by
  cases f with
  | utf value => exact .inr ⟨hmore, l, ⟨[], false⟩, rfl, ended_nil⟩
  | int value =>
    change reader.Stops more int _
    cases hl : Numeral.integer? l with
    | none =>
      refine .inl (Fails.bind_of_ok ?_ (utf_run l [] false))
      rw [hl]
      exact ⟨.noInteger l, _, rfl, trivial⟩
    | some n =>
      refine .inr ⟨hmore, n, ⟨[], false⟩, ?_, ended_nil⟩
      rw [int, Reading.run_bind_of_ok (utf_run l [] false), hl]
      rfl
  | double value =>
    change reader.Stops more double _
    cases hl : Numeral.real? l with
    | none =>
      refine .inl (Fails.bind_of_ok ?_ (utf_run l [] false))
      rw [hl]
      exact ⟨.noNumber l, _, rfl, trivial⟩
    | some x =>
      refine .inr ⟨hmore, x, ⟨[], false⟩, ?_, ended_nil⟩
      rw [double, Reading.run_bind_of_ok (utf_run l [] false), hl]
      rfl

/-- Behind the lines of the first fields there is at most a part of the next, which is not the last. -/
theorem cut_lines {before after : List Field} {f : Field} {ls : List Text}
    (h : ∀ g ∈ before, Fits g) (hls : ls = [] ∨ after ≠ [] ∧ ∃ l, ls = [l]) :
    reader.Cut False ⟨before.map line ++ ls, false⟩
      ((before ++ f :: after).map (Field.map Binary64.canonical)) := by
  induction before with
  | nil =>
    obtain rfl | ⟨hafter, l, rfl⟩ := hls
    · exact .inl (lacks_nil _ _)
    · exact .inl (lacks_line (.inl (List.map_eq_nil_iff.not.2 hafter)) l _)
  | cons g before ih =>
    have hg := takes_line (h g (by simp)) (before.map line ++ ls) false
    exact .inr ⟨_, hg, ih fun k hk => h k (List.mem_cons_of_mem g hk)⟩

theorem fails_of_cut {m : Model Binary64} (hlabels : m.labels.length < 10 ^ Numeral.maxDigits)
    (hpredicates : m.predicates.size < 10 ^ Numeral.maxDigits) {before after : List Field} {f : Field}
    {ls : List Text} (hsplit : m.fields = before ++ f :: after)
    (hls : ls = [] ∨ after ≠ [] ∧ ∃ l, ls = [l]) :
    Fails reader.model ⟨before.map line ++ ls, false⟩ := by
  have hfits : ∀ g ∈ before, Fits g := fun g hg =>
    fits_fields hlabels hpredicates g (hsplit ▸ List.mem_append_left _ hg)
  have hcut := cut_lines (f := f) hfits hls
  have halter : Field.map Binary64.canonical = Field.alter id Binary64.canonical := by
    funext g
    cases g <;> rfl
  rw [← hsplit, halter] at hcut
  exact Model.model_fails hlabels hpredicates rfl (fun _ _ => rfl) hcut

end PlainText

namespace Model

def Numeric (m : Model Binary64) : Prop :=
  ∀ q ∈ m.predicates.values, ∀ x ∈ q.params, x.isNaN = false

instance (m : Model Binary64) : Decidable m.Numeric :=
  inferInstanceAs (Decidable (∀ q ∈ _, ∀ x ∈ _, _))

theorem ReadAs.get?_eq {m n : Model Binary64} (h : m.ReadAs n) (hm : m.Numeric) (name : Text) :
    n.predicates.get? name = m.predicates.get? name := by
  rw [h.2 name]
  cases hq : m.predicates.get? name with
  | none => rfl
  | some q =>
    have hmem : q ∈ m.predicates.values :=
      List.mem_map_of_mem ((m.predicates.get?_eq_some_iff name q).1 hq)
    have hsame : ∀ w ∈ q.weights, (w.1, w.2.canonical) = w := by
      intro w hw
      rw [Binary64.canonical, hm q hmem w.2 (List.mem_map_of_mem hw)]
      rfl
    rw [Option.map_some, Predicate.map, List.map_congr_left hsame, List.map_id']

end Model

namespace PlainText

def CutsLastLine (m : Model Binary64) (p : Text) : Prop :=
  (Text.ended (m.fields.dropLast.map line)).length < p.length ∧
    p.length + 1 < (Text.ended (m.fields.map line)).length

instance (m : Model Binary64) (p : Text) : Decidable (CutsLastLine m p) :=
  inferInstanceAs (Decidable (_ ∧ _))

theorem OneLine.of_begins {t u : Text} (h : OneLine t) (hu : u <+: t) : OneLine u :=
  fun c hc => h c (hu.subset hc)

theorem cutsLastLine_of_begins {m : Model Binary64} {before : List Field} {f : Field} {l : Text}
    (hsplit : m.fields = before ++ [f]) (hl : l <+: line f) (hempty : l ≠ []) (hne : l ≠ line f) :
    CutsLastLine m (Text.ended (before.map line) ++ l) := by
  have hpos : 0 < l.length := List.length_pos_iff.2 hempty
  have hlt : l.length < (line f).length :=
    hl.length_le.lt_of_ne fun he => hne (hl.eq_of_length he)
  have hended : Text.ended ((before ++ [f]).map line) =
      Text.ended (before.map line) ++ (line f ++ ↑ "\n") := by
    simp [Text.ended]
  rw [CutsLastLine, hsplit, hended, List.dropLast_concat, List.length_append, List.length_append,
    List.length_append, show List.length (↑ "\n" : Text) = 1 from rfl]
  omega

theorem prefix_lines {fs : List Field} {p : Text} (h : p <+: Text.ended (fs.map line))
    (hne : p ≠ Text.ended (fs.map line)) :
    ∃ before f after l, fs = before ++ f :: after ∧ l <+: line f ∧
      p = Text.ended (before.map line) ++ l := by
  obtain ⟨ls, k, ls', l, hfs, hl, rfl⟩ := Text.prefix_ended h hne
  obtain ⟨before, rest, rfl, rfl, hrest⟩ := List.map_eq_append_iff.1 hfs
  obtain ⟨f, after, rfl, rfl, rfl⟩ := List.map_eq_cons_iff.1 hrest
  exact ⟨before, f, after, l, rfl, hl, rfl⟩

/-- Wherever the text of a model is cut, if not inside of its last line, what is left is told to be
no model, or lacks no more than the last line feed and is read as the model. -/
theorem read_truncated_text (m : Model Binary64)
    (hlabels : m.labels.length < 10 ^ Numeral.maxDigits)
    (hpredicates : m.predicates.size < 10 ^ Numeral.maxDigits) (hnumeric : m.Numeric) (owned : Bool)
    (o : Output CodePoint) (hwrite : (Output.writer encode owned).persist m .empty = (o, none))
    (p : Text) (hp : p <+: o.written) (hne : p ≠ o.written) (hcut : ¬ CutsLastLine m p)
    (input : Lines)
    (hinput : input = .ofText p ∨ ∃ bytes, Utf8.encode p = some bytes ∧ input = .ofBytes bytes) :
    (∃ e rest, reader.model.run input = (.error e, rest) ∧ e.IsFormat) ∨
      p ++ ↑ "\n" = o.written ∧
        ∃ n, reader.model.run input = (.ok n, ⟨[], false⟩) ∧ n.labels = m.labels ∧
          ∀ name, n.predicates.get? name = m.predicates.get? name := by
  obtain ⟨hlines, hended⟩ := written_of_persist hwrite
  rw [hended] at hp hne ⊢
  have hreturn : ↑ '\r' ∉ p := fun hm => Text.not_mem_ended (by decide)
    (List.forall_mem_map.2 fun f hf => (hlines f hf).return_not_mem) (hp.subset hm)
  have htext : input = .ofText p := by
    obtain rfl | ⟨bytes, hbytes, rfl⟩ := hinput
    · rfl
    · exact Lines.ofBytes_eq_ofText hbytes hreturn
  obtain ⟨before, f, after, l, hsplit, hl, rfl⟩ := prefix_lines hp hne
  rw [hsplit] at hlines
  have hfeed : ∀ k ∈ before.map line, ↑ '\n' ∉ k :=
    List.forall_mem_map.2 fun g hg => (hlines g (List.mem_append_left _ hg)).feed_not_mem
  have hlast : ↑ '\n' ∉ l := ((hlines f (by simp)).of_begins hl).feed_not_mem
  have hrun : input = ⟨before.map line ++ Text.lines l, false⟩ := by
    rw [htext, Lines.ofText, Text.lines_ended_append hfeed]
  -- A part of a line ends the model's text only behind all other lines.
  by_cases hwhole : after = [] ∧ l = line f ∧ l ≠ []
  · obtain ⟨rfl, rfl, hne⟩ := hwhole
    obtain ⟨n, hn, hread⟩ := model_run_lines hlabels hpredicates [] false
    refine .inr ⟨?_, n, ?_, hread.1, hread.get?_eq hnumeric⟩
    · rw [hsplit, List.append_assoc]
      simp [Text.ended]
    · rw [List.append_nil, hsplit, List.map_append] at hn
      rw [hrun, Text.lines_of_not_mem hlast hne]
      exact hn
  · have hls : Text.lines l = [] ∨ after ≠ [] ∧ ∃ k, Text.lines l = [k] := by
      by_cases hempty : l = []
      · exact .inl (hempty ▸ rfl)
      · refine .inr ⟨?_, l, Text.lines_of_not_mem hlast hempty⟩
        rintro rfl
        exact hcut (cutsLastLine_of_begins hsplit hl hempty fun he => hwhole ⟨rfl, he, hempty⟩)
    rw [hrun]
    exact .inl (fails_of_cut hlabels hpredicates hsplit hls)

def oneParam (x : Binary64) : Model Binary64 where
  labels := ["a", "b"]
  predicates := .ofList [("p", ⟨[(0, x)]⟩)]
  two_le := by decide
  labels_nodup := by decide
  inRange := by simp [Table.ofList, Table.insertAll, Table.insert, Table.insertEntry, Table.values,
    Table.empty, Predicate.InRange, Predicate.outcomes]

theorem fields_oneParam (x : Binary64) : (oneParam x).fields =
    [.utf "GIS", .int 1, .double .one, .int 2, .utf "a", .utf "b", .int 1, .utf "1 0", .int 1,
      .utf "p", .double x] := by
  cbv

theorem lines_oneParam (x : Binary64) : (oneParam x).fields.map line =
    [↑ "GIS", ↑ "1", ↑ "1.0", ↑ "2", ↑ "a", ↑ "b", ↑ "1", ↑ "1 0", ↑ "1", ↑ "p",
      Numeral.ofReal x] := by
  have hone : Numeral.ofReal .one = ↑ "1.0" := by decide +kernel
  have hints : [1, 2].map Numeral.ofInt = [↑ "1", ↑ "2"] := by decide +kernel
  simp only [List.map_cons, List.map_nil, List.cons.injEq, and_true] at hints
  rw [fields_oneParam]
  simp only [List.map_cons, List.map_nil, line, hone, hints]

theorem oneLine_oneParam (x : Binary64) : ∀ f ∈ (oneParam x).fields, OneLine (line f) := by
  rw [Model.forall_line_iff fun _ => OneLine.of_ascii]
  change _ ∧ _
  have hlabels : (oneParam x).labels = [↑ "a", ↑ "b"] := rfl
  have hnames : (oneParam x).predicates.keys = [↑ "p"] := rfl
  rw [hlabels, hnames]
  decide

def oneParamText (last : Text) : Text := "GIS\n1\n1.0\n2\na\nb\n1\n1 0\n1\np\n" ++ last

theorem persist_oneParam (x : Binary64) : ∃ o,
    (Output.writer encode false).persist (oneParam x) .empty = (o, none) ∧
      o.written = oneParamText (Numeral.ofReal x ++ ↑ "\n") := by
  have hone := oneLine_oneParam x
  refine ⟨_, Prod.ext rfl ?_, ?_⟩
  · exact Output.persist_snd_eq_none_iff.2 fun f hf => ⟨_, encode_of_oneLine (hone f hf)⟩
  · rw [written_persist hone, lines_oneParam]
    simp only [Text.ended, List.flatMap_cons, List.flatMap_nil, List.append_nil]
    rfl

def quarter : Binary64 := ⟨0x3FD0000000000000⟩

def fifth : Binary64 := ⟨0x3FC999999999999A⟩

theorem ofReal_quarter : Numeral.ofReal quarter = ↑ "0.25" := by decide +kernel

theorem ofReal_fifth : Numeral.ofReal fifth = ↑ "0.2" := by decide +kernel

theorem read_truncated_text_quarter : ∃ o,
    (Output.writer encode false).persist (oneParam quarter) .empty = (o, none) ∧
      oneParamText "0.25" <+: o.written ∧ ¬ CutsLastLine (oneParam quarter) (oneParamText "0.25") ∧
      ((∃ e rest, reader.model.run (.ofText (oneParamText "0.25")) = (.error e, rest) ∧ e.IsFormat) ∨
        oneParamText "0.25" ++ ↑ "\n" = o.written ∧
          ∃ n, reader.model.run (.ofText (oneParamText "0.25")) = (.ok n, ⟨[], false⟩) ∧
            n.labels = (oneParam quarter).labels ∧
            ∀ name, n.predicates.get? name = (oneParam quarter).predicates.get? name) := by
  obtain ⟨o, ho, hwritten⟩ := persist_oneParam quarter
  rw [ofReal_quarter] at hwritten
  have hprefix : oneParamText "0.25" <+: o.written := by
    rw [hwritten]
    decide
  have hne : oneParamText "0.25" ≠ o.written := by
    rw [hwritten]
    decide
  have hcut : ¬ CutsLastLine (oneParam quarter) (oneParamText "0.25") := by
    rw [CutsLastLine, lines_oneParam, ofReal_quarter]
    exact fun h => absurd h.2 (by decide)
  exact ⟨o, ho, hprefix, hcut, read_truncated_text (oneParam quarter) (Numeral.lt_pow_maxDigits (by decide))
    (Numeral.lt_pow_maxDigits (by decide)) (by decide) false o ho _ hprefix hne hcut _ (.inl rfl)⟩

/-- What is left of a number that is cut inside may be another number. -/
theorem read_truncated_text_ne_quarter : ∃ o,
    (Output.writer encode false).persist (oneParam quarter) .empty = (o, none) ∧
      (oneParam quarter).Numeric ∧ oneParamText "0.2" <+: o.written ∧
      ∃ n, reader.model.run (.ofText (oneParamText "0.2")) = (.ok n, ⟨[], false⟩) ∧
        n.predicates.get? "p" = some ⟨[(0, fifth)]⟩ ∧
        (oneParam quarter).predicates.get? "p" = some ⟨[(0, quarter)]⟩ ∧ fifth ≠ quarter := by
  obtain ⟨o, ho, hwritten⟩ := persist_oneParam quarter
  rw [ofReal_quarter] at hwritten
  refine ⟨o, ho, by decide, ?_, ?_⟩
  · rw [hwritten]
    decide
  · obtain ⟨n, hn, hread⟩ := model_run_lines (m := oneParam fifth) (Numeral.lt_pow_maxDigits (by decide))
      (Numeral.lt_pow_maxDigits (by decide)) [] false
    rw [lines_oneParam, ofReal_fifth] at hn
    refine ⟨n, hn, ?_, rfl, by decide⟩
    rw [hread.get?_eq (by decide)]
    rfl

end PlainText

end MaxEnt
