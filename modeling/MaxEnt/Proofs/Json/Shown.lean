import MaxEnt.Proofs.Json.RoundTrip

namespace MaxEnt.Json

section Parts

variable {P : CodePoint → Prop}

theorem forall_mem_enclosed {opening closing : CodePoint} {first between last : Text}
    {parts : List Text} (hopening : P opening) (hclosing : P closing) (hcomma : P ↑ ',')
    (hfirst : ∀ c ∈ first, P c) (hbetween : ∀ c ∈ between, P c) (hlast : ∀ c ∈ last, P c)
    (hparts : ∀ t ∈ parts, ∀ c ∈ t, P c) :
    ∀ c ∈ enclosed opening closing first between last parts, P c := by
  have hseparator : ∀ c ∈ (↑ ',' :: between : Text), P c :=
    List.forall_mem_cons.2 ⟨hcomma, hbetween⟩
  have hend : ∀ c ∈ last ++ [closing], P c :=
    List.forall_mem_append.2 ⟨hlast, by simpa using hclosing⟩
  exact List.forall_mem_cons.2 ⟨hopening, List.forall_mem_append.2 ⟨hfirst,
    List.forall_mem_append.2 ⟨Text.forall_mem_intercalate hseparator hparts, hend⟩⟩⟩

end Parts

theorem ascii_realText (x : Binary64) : (realText x).Ascii := by
  unfold realText
  split_ifs
  · decide
  · decide
  · decide
  · exact Numeral.ascii_ofReal x

theorem ascii_bool (b : Bool) : Text.Ascii (if b then "true" else "false") := by
  cases b <;> decide

theorem ascii_space : Text.Ascii [↑ ' '] := by decide

mutual

theorem ascii_text : ∀ v : Json, v.text.Ascii
  | .null => (by decide : Text.Ascii "null")
  | .bool b => ascii_bool b
  | .int n => Numeral.ascii_ofInt n
  | .real x => ascii_realText x
  | .string t => ascii_stringText t
  | .array items => by
    rw [text_array]
    exact forall_mem_enclosed (by decide) (by decide) (by decide) (by simp) ascii_space (by simp)
      (ascii_itemTexts items)
  | .object fields => by
    rw [text_object]
    exact forall_mem_enclosed (by decide) (by decide) (by decide) (by simp) ascii_space (by simp)
      (ascii_fieldTexts fields)

theorem ascii_itemTexts : ∀ items : List Json, ∀ t ∈ itemTexts items, t.Ascii
  | [] => by simp [itemTexts]
  | item :: items => by
    rw [itemTexts]
    exact List.forall_mem_cons.2 ⟨ascii_text item, ascii_itemTexts items⟩

theorem ascii_fieldTexts : ∀ fields : List (Text × Json), ∀ t ∈ fieldTexts fields, t.Ascii
  | [] => by simp [fieldTexts]
  | (key, value) :: fields => by
    have hfield : (Text.concat [stringText key, ": ", value.text]).Ascii :=
      (ascii_stringText key).append (.append (by decide) (.append (ascii_text value) .nil))
    rw [fieldTexts]
    exact List.forall_mem_cons.2 ⟨hfield, ascii_fieldTexts fields⟩

end

def Shown (t : Text) : Prop := ∀ c ∈ t, c = ↑ '\n' ∨ (32 ≤ c.val ∧ c.val ≤ 126)

theorem shown_of_ascii {t : Text} (h : t.Ascii) : Shown t := fun c hc => .inr (h c hc)

theorem Shown.hasSurrogate {t : Text} (h : Shown t) : t.hasSurrogate = false := by
  rw [Text.hasSurrogate, List.any_eq_false]
  intro c hc
  rcases h c hc with rfl | hval
  · decide
  · simp [CodePoint.isSurrogate_of_lt (c := c) (by omega)]

theorem Shown.return_not_mem {t : Text} (h : Shown t) : ↑ '\r' ∉ t := fun hm =>
  absurd (h _ hm) (by decide)

theorem shown_newLine (depth : Nat) : Shown (newLine depth) := by
  intro c hc
  rcases List.mem_cons.1 hc with rfl | hc
  · exact .inl rfl
  · rw [List.eq_of_mem_replicate hc]
    decide

theorem shown_block (depth : Nat) {opening closing : Text} (hopening : Shown opening)
    (hclosing : Shown closing) {parts : List Text} (hparts : ∀ t ∈ parts, Shown t) :
    Shown (block depth opening closing parts) := by
  have hseparator : Shown (↑ ',' :: newLine (depth + 1)) :=
    List.forall_mem_cons.2 ⟨by decide, shown_newLine _⟩
  unfold block
  split
  · exact List.forall_mem_append.2 ⟨hopening, hclosing⟩
  · simp only [Text.concat, Shown, List.flatten_cons, List.flatten_nil, List.forall_mem_append]
    exact ⟨hopening, shown_newLine _, Text.forall_mem_intercalate hseparator hparts, shown_newLine _,
      hclosing, by simp⟩

mutual

theorem shown_indented (margin : Nat) : ∀ v : Json, Shown (v.indented margin)
  | .null => shown_of_ascii (by decide : Text.Ascii "null")
  | .bool b => shown_of_ascii (ascii_bool b)
  | .int n => shown_of_ascii (Numeral.ascii_ofInt n)
  | .real x => shown_of_ascii (ascii_realText x)
  | .string t => shown_of_ascii (ascii_stringText t)
  | .array items => by
    rw [indented]
    exact shown_block margin (shown_of_ascii (by decide)) (shown_of_ascii (by decide))
      (shown_indentedItems (margin + 1) items)
  | .object fields => by
    rw [indented]
    exact shown_block margin (shown_of_ascii (by decide)) (shown_of_ascii (by decide))
      (shown_indentedFields (margin + 1) fields)

theorem shown_indentedItems (margin : Nat) :
    ∀ items : List Json, ∀ t ∈ indentedItems margin items, Shown t
  | [] => by simp [indentedItems]
  | item :: items => by
    rw [indentedItems]
    exact List.forall_mem_cons.2 ⟨shown_indented margin item, shown_indentedItems margin items⟩

theorem shown_indentedFields (margin : Nat) :
    ∀ fields : List (Text × Json), ∀ t ∈ indentedFields margin fields, Shown t
  | [] => by simp [indentedFields]
  | (key, value) :: fields => by
    have hfield : Shown (Text.concat [stringText key, ": ", value.indented margin]) := by
      simp only [Text.concat, Shown, List.flatten_cons, List.flatten_nil, List.forall_mem_append]
      exact ⟨shown_of_ascii (ascii_stringText key), shown_of_ascii (by decide : Text.Ascii ": "),
        shown_indented margin value, by simp⟩
    rw [indentedFields]
    exact List.forall_mem_cons.2 ⟨hfield, shown_indentedFields margin fields⟩

end

end MaxEnt.Json
