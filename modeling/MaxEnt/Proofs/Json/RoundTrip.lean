import MaxEnt.Proofs.Json.Reading

namespace MaxEnt.Json

mutual

/-- What a reader tells from the text of the value: strings without pairs of surrogates, integers
that are not too long, keys that differ, arrays and objects at most `depth` deep in each other. -/
def Readable (depth : Nat) : Json → Prop
  | null => True
  | bool _ => True
  | int n => (Numeral.digits n.natAbs).length ≤ Numeral.maxDigits
  | real x => x.canonical = x
  | string t => ModifiedUtf8.Unpaired t
  | array items => 0 < depth ∧ ReadableItems (depth - 1) items
  | object fields =>
    0 < depth ∧ (fields.map Prod.fst).Nodup ∧ ReadableFields (depth - 1) fields

def ReadableItems (depth : Nat) : List Json → Prop
  | [] => True
  | item :: items => item.Readable depth ∧ ReadableItems depth items

def ReadableFields (depth : Nat) : List (Text × Json) → Prop
  | [] => True
  | (key, value) :: fields =>
    ModifiedUtf8.Unpaired key ∧ value.Readable depth ∧ ReadableFields depth fields

end

section Readable

variable {depth : Nat}

theorem readableItems_iff {items : List Json} :
    ReadableItems depth items ↔ ∀ item ∈ items, item.Readable depth := by
  induction items with
  | nil => simp [ReadableItems]
  | cons item items ih => rw [ReadableItems, ih, List.forall_mem_cons]

theorem readableFields_iff {fields : List (Text × Json)} :
    ReadableFields depth fields ↔
      ∀ f ∈ fields, ModifiedUtf8.Unpaired f.1 ∧ f.2.Readable depth := by
  induction fields with
  | nil => simp [ReadableFields]
  | cons f fields ih => rw [ReadableFields, ih, List.forall_mem_cons, and_assoc]

theorem readable_ofTable_iff {t : Table Text Json} :
    (ofTable t).Readable depth ↔ 0 < depth ∧
      ∀ f ∈ t.entries, ModifiedUtf8.Unpaired f.1 ∧ f.2.Readable (depth - 1) := by
  rw [ofTable, Readable, readableFields_iff, and_iff_right t.nodup]

theorem readable_ofTexts {ts : List Text} (h : ∀ t ∈ ts, ModifiedUtf8.Unpaired t) :
    (ofTexts ts).Readable (depth + 1) := by
  rw [ofTexts, Readable, readableItems_iff, List.forall_mem_map]
  exact ⟨Nat.succ_pos depth, fun t ht => by rw [Readable]; exact h t ht⟩

theorem readable_length {n : Nat} (h : n < 2 ^ 31) : (int n).Readable depth := by
  have hdigits := Numeral.length_digits_le (by decide : 0 < 10) (h.trans (by decide : 2 ^ 31 < 10 ^ 10))
  rw [Readable, Int.natAbs_natCast]
  exact hdigits.trans (by decide)

end Readable

def BeginsScalar (t : Text) : Prop :=
  ∃ c u, t = c :: u ∧ isBlank c = false ∧ c ≠ ↑ ']' ∧ c ≠ ↑ '[' ∧ c ≠ ↑ '{'

theorem beginsScalar_number {s : Numeral.Spelling} (hs : s.Sound) (negative : Bool) :
    BeginsScalar (Numeral.ofSign negative ++ s.text) := by
  cases negative with
  | true => exact ⟨↑ '-', s.text, rfl, by decide⟩
  | false =>
    obtain ⟨d, u, hd, htext⟩ := hs.head_text
    have hall : ∀ d : Fin 10, isBlank (CodePoint.ofDecimal d) = false ∧
        CodePoint.ofDecimal d ≠ ↑ ']' ∧ CodePoint.ofDecimal d ≠ ↑ '[' ∧
        CodePoint.ofDecimal d ≠ ↑ '{' := by decide
    exact ⟨CodePoint.ofDecimal d, u, htext, hall ⟨d, hd⟩⟩

theorem Reads.of_beginsScalar {depth : Nat} {v : Json} {t : Text} (ht : BeginsScalar t)
    (h : ∀ rest, Ends rest → parseScalar (t ++ rest) = .ok (v, rest)) : Reads depth v t := by
  obtain ⟨c, u, ht, hc⟩ := ht
  exact .of_scalar ⟨hc.1, hc.2.1, hc.2.2⟩ ht h

section Scalars

variable {depth : Nat}

theorem reads_int {n : Int} (h : (int n).Readable depth) :
    Reads depth (.int n) (Numeral.ofInt n) := by
  rw [Readable] at h
  refine .of_beginsScalar ?_ fun rest hrest => parseScalar_ofInt h hrest
  rw [ofInt_eq]
  exact beginsScalar_number
    ⟨(Numeral.leading_digits _).ne_nil, Numeral.digits_lt_ten _, by simp⟩ _

theorem reads_real {x : Binary64} (h : (real x).Readable depth) :
    Reads depth (.real x) (realText x) := by
  rw [Readable] at h
  refine .of_beginsScalar ?_ fun rest hrest => parseScalar_realText h hrest
  unfold realText
  split_ifs with hnan hinf hnegative
  · exact ⟨↑ 'N', _, rfl, by decide⟩
  · exact ⟨↑ '-', _, rfl, by decide⟩
  · exact ⟨↑ 'I', _, rfl, by decide⟩
  · rw [Numeral.ofReal, Numeral.ofBinary64, if_neg hnan, if_neg hinf, ← Numeral.text_spelling]
    exact beginsScalar_number (Numeral.sound_spelling _) _

theorem reads_string {t : Text} (h : (string t).Readable depth) :
    Reads depth (.string t) (stringText t) := by
  rw [Readable] at h
  exact .of_beginsScalar ⟨↑ '"', _, stringText_eq t, by decide⟩
    fun rest _ => parseScalar_stringText h rest

theorem reads_null : Reads depth .null "null" :=
  .of_beginsScalar ⟨↑ 'n', _, rfl, by decide⟩ fun _ _ => rfl

theorem reads_bool (b : Bool) : Reads depth (.bool b) (if b then "true" else "false") := by
  cases b with
  | true => exact .of_beginsScalar ⟨↑ 't', _, rfl, by decide⟩ fun _ _ => rfl
  | false => exact .of_beginsScalar ⟨↑ 'f', _, rfl, by decide⟩ fun _ _ => rfl

end Scalars

theorem text_array (items : List Json) :
    (array items).text = enclosed '[' ']' [] [↑ ' '] [] (itemTexts items) := by
  simp only [text, Text.concat, enclosed, List.flatten_cons, List.flatten_nil, List.nil_append]
  rfl

theorem text_object (fields : List (Text × Json)) :
    (object fields).text = enclosed '{' '}' [] [↑ ' '] [] (fieldTexts fields) := by
  simp only [text, Text.concat, enclosed, List.flatten_cons, List.flatten_nil, List.nil_append]
  rfl

theorem blanks_nil : Blanks [] := by simp [Blanks]

theorem blanks_space : Blanks [↑ ' '] := by simp [Blanks, isBlank]

mutual

theorem reads_text {depth : Nat} : ∀ v : Json, v.Readable depth → Reads depth v v.text
  | .null, _ => reads_null
  | .bool b, _ => reads_bool b
  | .int _, h => reads_int h
  | .real _, h => reads_real h
  | .string _, h => reads_string h
  | .array items, h => by
    rw [Readable] at h
    obtain ⟨below, rfl⟩ := Nat.exists_eq_succ_of_ne_zero h.1.ne'
    rw [text_array]
    exact .array (reads_itemTexts items h.2) blanks_nil blanks_space blanks_nil
  | .object fields, h => by
    rw [Readable] at h
    obtain ⟨below, rfl⟩ := Nat.exists_eq_succ_of_ne_zero h.1.ne'
    rw [text_object]
    exact .object (reads_fieldTexts fields h.2.2) h.2.1 blanks_nil blanks_space blanks_nil

theorem reads_itemTexts {depth : Nat} : ∀ items : List Json, ReadableItems depth items →
    List.Forall₂ (Reads depth) items (itemTexts items)
  | [], _ => .nil
  | item :: items, h => by
    rw [ReadableItems] at h
    rw [itemTexts]
    exact .cons (reads_text item h.1) (reads_itemTexts items h.2)

theorem reads_fieldTexts {depth : Nat} : ∀ fields : List (Text × Json),
    ReadableFields depth fields → List.Forall₂ (ReadsField depth) fields (fieldTexts fields)
  | [], _ => .nil
  | (key, value) :: fields, h => by
    rw [ReadableFields] at h
    rw [fieldTexts]
    exact .cons ⟨value.text, rfl, h.1, reads_text value h.2.1⟩ (reads_fieldTexts fields h.2.2)

end

theorem blanks_newLine (depth : Nat) : Blanks (newLine depth) := by
  intro c hc
  rcases List.mem_cons.1 hc with rfl | hc
  · decide
  · rw [List.eq_of_mem_replicate hc]
    decide

/-- A block is its parts on lines of their own, or the two marks side by side. -/
theorem block_eq_enclosed (depth : Nat) (opening closing : CodePoint) (parts : List Text) :
    ∃ first last, Blanks first ∧ Blanks last ∧ block depth [opening] [closing] parts =
      enclosed opening closing first (newLine (depth + 1)) last parts := by
  cases parts with
  | nil => exact ⟨[], [], blanks_nil, blanks_nil, by simp [block, enclosed]⟩
  | cons part parts =>
    refine ⟨newLine (depth + 1), newLine depth, blanks_newLine _, blanks_newLine _, ?_⟩
    simp [block, enclosed, Text.concat]

mutual

theorem reads_indented {depth : Nat} (margin : Nat) :
    ∀ v : Json, v.Readable depth → Reads depth v (v.indented margin)
  | .null, _ => reads_null
  | .bool b, _ => reads_bool b
  | .int _, h => reads_int h
  | .real _, h => reads_real h
  | .string _, h => reads_string h
  | .array items, h => by
    rw [Readable] at h
    obtain ⟨below, rfl⟩ := Nat.exists_eq_succ_of_ne_zero h.1.ne'
    obtain ⟨first, last, hfirst, hlast, heq⟩ :=
      block_eq_enclosed margin '[' ']' (indentedItems (margin + 1) items)
    change Reads _ _ (block margin [↑ '['] [↑ ']'] (indentedItems (margin + 1) items))
    rw [heq]
    exact .array (reads_indentedItems (margin + 1) items h.2) hfirst (blanks_newLine _) hlast
  | .object fields, h => by
    rw [Readable] at h
    obtain ⟨below, rfl⟩ := Nat.exists_eq_succ_of_ne_zero h.1.ne'
    obtain ⟨first, last, hfirst, hlast, heq⟩ :=
      block_eq_enclosed margin '{' '}' (indentedFields (margin + 1) fields)
    change Reads _ _ (block margin [↑ '{'] [↑ '}'] (indentedFields (margin + 1) fields))
    rw [heq]
    exact .object (reads_indentedFields (margin + 1) fields h.2.2) h.2.1 hfirst (blanks_newLine _)
      hlast

theorem reads_indentedItems {depth : Nat} (margin : Nat) : ∀ items : List Json,
    ReadableItems depth items → List.Forall₂ (Reads depth) items (indentedItems margin items)
  | [], _ => .nil
  | item :: items, h => by
    rw [ReadableItems] at h
    rw [indentedItems]
    exact .cons (reads_indented margin item h.1) (reads_indentedItems margin items h.2)

theorem reads_indentedFields {depth : Nat} (margin : Nat) : ∀ fields : List (Text × Json),
    ReadableFields depth fields →
      List.Forall₂ (ReadsField depth) fields (indentedFields margin fields)
  | [], _ => .nil
  | (key, value) :: fields, h => by
    rw [ReadableFields] at h
    rw [indentedFields]
    exact .cons ⟨value.indented margin, rfl, h.1, reads_indented margin value h.2.1⟩
      (reads_indentedFields margin fields h.2.2)

end

theorem parse_text {v : Json} (h : v.Readable maxDepth) : parse v.text = .ok v :=
  parse_of_reads (reads_text v h)

theorem parse_indented {v : Json} (h : v.Readable maxDepth) (margin : Nat) :
    parse (v.indented margin) = .ok v := parse_of_reads (reads_indented margin v h)

end MaxEnt.Json
