import MaxEnt.Proofs.Codec.PlainText

namespace MaxEnt

/-- What a writer was given: the fields, and how often it was closed. -/
structure Record where
  fields : List Field
  closings : Nat

namespace Record

variable {ε : Type}

def writer (k : Nat) (e : ε) : Writer Record ε where
  put f r := if r.fields.length = k then .error e else .ok { r with fields := r.fields ++ [f] }
  close r := { r with closings := r.closings + 1 }

theorem accepts {k : Nat} {fs : List Field} {r : Record} (h : r.fields.length + fs.length ≤ k)
    (e : ε) : (writer k e).Accepts fs r { r with fields := r.fields ++ fs } := by
  induction fs generalizing r with
  | nil => simp [Writer.Accepts]
  | cons f fs ih =>
    rw [List.length_cons] at h
    have hk : ¬ r.fields.length = k := by omega
    refine ⟨{ r with fields := r.fields ++ [f] }, if_neg hk, ?_⟩
    have hrest : (r.fields ++ [f]).length + fs.length ≤ k := by
      rw [List.length_append, List.length_singleton]
      omega
    have hfs := ih (r := { r with fields := r.fields ++ [f] }) hrest
    rwa [List.append_assoc, List.singleton_append] at hfs

theorem persist_writer (m : Model Binary64) (k : Nat) (e : ε) :
    (writer k e).persist m ⟨[], 0⟩ =
      (⟨m.fields.take k, 1⟩, if k < m.fields.length then some e else none) := by
  have hkept : ∀ fs : List Field, fs.length ≤ k →
      (writer k e).Accepts fs ⟨[], 0⟩ ⟨fs, 0⟩ :=
    fun fs hfs => accepts (r := ⟨[], 0⟩) (by simpa using hfs) e
  by_cases hk : k < m.fields.length
  · have hlength : (m.fields.take k).length = k := List.length_take_of_le hk.le
    have hfields : m.fields = m.fields.take k ++ m.fields[k] :: m.fields.drop (k + 1) := by
      rw [← List.drop_eq_getElem_cons hk, List.take_append_drop]
    have hput : (writer k e).put m.fields[k] ⟨m.fields.take k, 0⟩ = .error e := if_pos hlength
    rw [Writer.persist_of_refused hfields (hkept _ hlength.le) hput, if_pos hk]
    rfl
  · rw [not_lt] at hk
    rw [Writer.persist_of_accepts (hkept _ hk), if_neg hk.not_gt, List.take_of_length_le hk]
    rfl

end Record

namespace Model

def params (m : Model Binary64) : List Binary64 := m.sorted.flatMap (·.params)

theorem length_params_of_mem_sorted {m : Model Binary64} {p : NamedPredicate} (h : p ∈ m.sorted) :
    p.params.length = p.outcomes.length := by
  obtain ⟨e, -, rfl⟩ := exists_entry_of_mem_sorted h
  simp [Predicate.params, Predicate.outcomes]

theorem length_params (m : Model Binary64) :
    m.params.length = (m.groups.map fun g => g.members.length * g.outcomes.length).sum := by
  have hlengths : m.sorted.map (·.params.length) = (m.sorted.map (·.outcomes)).map List.length := by
    rw [List.map_map]
    exact List.map_congr_left fun p hp => length_params_of_mem_sorted hp
  rw [params, List.length_flatMap, hlengths, ← PredicateGroup.spread_ofList,
    PredicateGroup.sum_length_spread, List.map_map]
  rfl

theorem sum_members (m : Model Binary64) :
    (m.groups.map (·.members.length)).sum = m.predicates.size := by
  have hcovered := PredicateGroup.covered_ofList m.sorted
  rw [length_sorted, GroupPattern.covered, List.map_map] at hcovered
  exact hcovered

structure LaidOut (m : Model Binary64) : Prop where
  fields : m.fields =
    Field.utf tag :: Field.int 1 :: Field.double .one ::
      Field.int m.labels.length :: m.labels.map Field.utf ++
      Field.int m.groups.length ::
        (m.groups.map fun g => Field.utf (Numeral.ofNat g.members.length ++ pattern g.outcomes)) ++
      Field.int m.predicates.size :: (m.sorted.map fun p => Field.utf p.name) ++
      m.params.map Field.double
  names : (m.sorted.map (·.name)).Perm m.predicates.keys
  members : (m.groups.map (·.members.length)).sum = m.predicates.size
  params : m.params.length = (m.groups.map fun g => g.members.length * g.outcomes.length).sum

theorem laidOut (m : Model Binary64) : m.LaidOut where
  fields := by
    rw [Model.fields, length_sorted, params, List.map_flatMap]
    rfl
  names := by
    have hnames := m.sorted_perm.map (·.name)
    rwa [namedPredicates, List.map_map] at hnames
  members := m.sum_members
  params := m.length_params

end Model

namespace Output

variable {β ε : Type} {encode : Field → Except ε (List β)}

theorem encoded_or_refused (encode : Field → Except ε (List β)) (fs : List Field) :
    (∃ parts : List (List β), fs.map encode = parts.map .ok) ∨
      ∃ (before : List Field) (f : Field) (after : List Field) (parts : List (List β)) (e : ε),
        fs = before ++ f :: after ∧ before.map encode = parts.map .ok ∧ encode f = .error e := by
  induction fs with
  | nil => exact .inl ⟨[], rfl⟩
  | cons f fs ih =>
    cases hf : encode f with
    | error e => exact .inr ⟨[], f, fs, [], e, rfl, rfl, hf⟩
    | ok part =>
      rcases ih with ⟨parts, hfs⟩ | ⟨before, g, after, parts, e, rfl, hbefore, hg⟩
      · exact .inl ⟨part :: parts, by rw [List.map_cons, List.map_cons, hf, hfs]⟩
      · refine .inr ⟨f :: before, g, after, part :: parts, e, rfl, ?_, hg⟩
        rw [List.map_cons, List.map_cons, hf, hbefore]

/-- What a model leaves on an output: the encodings of its fields, or of those before the first text
that has none and of no part of this. Only an output of the writer's own is closed. -/
inductive Ended (encode : Field → Except ε (List β)) (fault : Text → ε) (owned : Bool)
    (m : Model Binary64) : Output β × Option ε → Prop
  | complete {parts : List (List β)} (encoded : m.fields.map encode = parts.map .ok) :
    Ended encode fault owned m (⟨parts.reverse, !owned⟩, none)
  | stopped {before after : List Field} {value : Text} {parts : List (List β)}
    (fields : m.fields = before ++ .utf value :: after)
    (encoded : before.map encode = parts.map .ok)
    (refused : encode (.utf value) = .error (fault value)) :
    Ended encode fault owned m (⟨parts.reverse, !owned⟩, some (fault value))

theorem close_writer (encode : Field → Except ε (List β)) (owned : Bool) (parts : List (List β)) :
    (writer encode owned).close ⟨parts, true⟩ = ⟨parts, !owned⟩ := by
  cases owned <;> rfl

theorem ended_persist {fault : Text → ε} {m : Model Binary64}
    (h : ∀ f ∈ m.fields, ∀ e, encode f = .error e → ∃ value, f = .utf value ∧ e = fault value)
    (owned : Bool) : Ended encode fault owned m ((writer encode owned).persist m .empty) := by
  have hparts : ∀ {fs : List Field} {parts : List (List β)}, fs.map encode = parts.map .ok →
      (writer encode owned).Accepts fs .empty ⟨parts.reverse, true⟩ := by
    intro fs parts hencoded
    simpa [empty] using accepts_of_encoded hencoded owned .empty
  rcases encoded_or_refused encode m.fields with
    ⟨parts, hencoded⟩ | ⟨before, f, after, parts, e, hfields, hencoded, hf⟩
  · rw [Writer.persist_of_accepts (hparts hencoded), close_writer]
    exact .complete hencoded
  · obtain ⟨value, rfl, rfl⟩ := h f (by simp [hfields]) e hf
    rw [Writer.persist_of_refused hfields (hparts hencoded) (put_of_error hf owned _), close_writer]
    exact .stopped hfields hencoded hf

end Output

namespace Binary

def tooLong (t : Text) : WriteError := .tooLong (ModifiedUtf8.encode t).length

theorem refused_text {f : Field} {e : WriteError} (hint : ∀ n, f = .int n → fitsInt n = true)
    (h : encode f = .error e) : ∃ value, f = .utf value ∧ e = tooLong value := by
  cases f with
  | utf value =>
    rw [encode] at h
    split at h
    · cases h
    · cases h
      exact ⟨value, rfl, rfl⟩
  | int value =>
    have hfits : Fits (.int value) := hint value rfl
    rw [encode_of_fits hfits] at h
    cases h
  | double value => cases h

theorem fitsInt_of_mem_fields {m : Model Binary64} (hlabels : m.labels.length < 2 ^ 31)
    (hpredicates : m.predicates.size < 2 ^ 31) :
    ∀ f ∈ m.fields, ∀ n, f = .int n → fitsInt n = true := by
  have hcount : ∀ k : Nat, k < 2 ^ 31 → ∀ n, Field.int k = .int n → fitsInt n = true := by
    intro k hk n h
    cases h
    exact fitsInt_of_lt hk
  exact Model.field_cases nofun (hcount 1 (by decide)) (fun _ => nofun) (hcount _ hlabels)
    (fun _ _ => nofun) (hcount _ (m.length_groups_le.trans_lt hpredicates)) (fun _ _ => nofun)
    (hcount _ (m.length_sorted ▸ hpredicates)) fun _ _ => nofun

theorem complete_iff {m : Model Binary64} (hlabels : m.labels.length < 2 ^ 31)
    (hpredicates : m.predicates.size < 2 ^ 31) {owned : Bool} :
    ((Output.writer encode owned).persist m .empty).2 = none ↔
      m.EveryText FitsString ∧ ∀ g ∈ m.groups, FitsString g.token := by
  rw [complete_iff_fitsBinary]
  constructor
  · intro h
    exact ⟨⟨h.labels, h.names⟩, h.tokens⟩
  · rintro ⟨⟨hlabel, hname⟩, htoken⟩
    exact ⟨hlabel, htoken, hname, hlabels, m.length_groups_le.trans_lt hpredicates, hpredicates⟩

end Binary

namespace PlainText

theorem refused_text {f : Field} {e : WriteError} (h : encode f = .error e) :
    ∃ value, f = .utf value ∧ e = .lineBreak value := by
  cases f with
  | utf value =>
    rw [encode] at h
    split at h
    · cases h
      exact ⟨value, rfl, rfl⟩
    · cases h
  | int value => cases h
  | double value => cases h

theorem complete_iff {m : Model Binary64} {owned : Bool} :
    ((Output.writer encode owned).persist m .empty).2 = none ↔ m.EveryText OneLine := by
  rw [Output.persist_snd_eq_none_iff, ← Model.forall_line_iff (fun _ => OneLine.of_ascii) m]
  refine forall₂_congr fun f _ => ⟨fun ⟨part, h⟩ => oneLine_of_encode h, fun h => ?_⟩
  exact ⟨_, encode_of_oneLine h⟩

end PlainText

/-- What a writer leaves behind. It was given the fields of the model in their order, up to the one
that it refused, and was closed once. An output of the caller's holds their encodings and stays
open; a text that is too long for the binary format, or that has a line break in the other, is
refused, and nothing else is. -/
theorem Model.persist_stops (m : Model Binary64) :
    m.LaidOut ∧
      (∀ (ε : Type) (k : Nat) (e : ε), (Record.writer k e).persist m ⟨[], 0⟩ =
        (⟨m.fields.take k, 1⟩, if k < m.fields.length then some e else none)) ∧
      (m.labels.length < 2 ^ 31 → m.predicates.size < 2 ^ 31 →
        Output.Ended Binary.encode Binary.tooLong false m
          ((Output.writer Binary.encode false).persist m .empty) ∧
        (((Output.writer Binary.encode false).persist m .empty).2 = none ↔
          m.EveryText Binary.FitsString ∧ ∀ g ∈ m.groups, Binary.FitsString g.token)) ∧
      Output.Ended PlainText.encode .lineBreak false m
        ((Output.writer PlainText.encode false).persist m .empty) ∧
      (((Output.writer PlainText.encode false).persist m .empty).2 = none ↔
        m.EveryText PlainText.OneLine) := by
  refine ⟨m.laidOut, fun _ => Record.persist_writer m, fun hlabels hpredicates => ?_, ?_, ?_⟩
  · have hint := Binary.fitsInt_of_mem_fields hlabels hpredicates
    exact ⟨Output.ended_persist (fun f hf _ => Binary.refused_text (hint f hf)) false,
      Binary.complete_iff hlabels hpredicates⟩
  · exact Output.ended_persist (fun _ _ _ => PlainText.refused_text) false
  · exact PlainText.complete_iff

def longText : Text := List.replicate 65536 ↑ 'b'

theorem not_fitsString_longText : ¬ Binary.FitsString longText := by
  have hascii : Text.Ascii longText := fun c hc => by
    rw [List.eq_of_mem_replicate hc]
    decide
  rw [Binary.FitsString, ModifiedUtf8.length_encode_of_ascii hascii, longText, List.length_replicate]
  decide

def longModel : Model Binary64 where
  labels := ["two\nlines", longText]
  predicates := .ofList [("p", ⟨[(0, .one)]⟩)]
  two_le := by decide
  labels_nodup := by decide +kernel
  inRange := by decide

theorem Model.persist_stops_longModel :
    ((Output.writer Binary.encode false).persist longModel .empty).2 ≠ none ∧
      Output.Ended Binary.encode Binary.tooLong false longModel
        ((Output.writer Binary.encode false).persist longModel .empty) ∧
      ((Output.writer PlainText.encode false).persist longModel .empty).2 ≠ none ∧
      Output.Ended PlainText.encode .lineBreak false longModel
        ((Output.writer PlainText.encode false).persist longModel .empty) := by
  obtain ⟨-, -, hbinary, htext, htextIff⟩ := persist_stops longModel
  obtain ⟨hended, hiff⟩ := hbinary (by decide) (by decide)
  have hlines : ↑ "two\nlines" ∈ longModel.labels := List.mem_cons_self
  have hlong : longText ∈ longModel.labels := List.mem_cons_of_mem _ List.mem_cons_self
  refine ⟨fun h => ?_, hended, fun h => ?_, htext⟩
  · exact not_fitsString_longText ((hiff.1 h).1.1 longText hlong)
  · exact absurd ((htextIff.1 h).1 _ hlines) (by decide)

end MaxEnt
