import MaxEnt.Codec.Writer

namespace MaxEnt

namespace Writer

variable {σ ε : Type} {w : Writer σ ε} {m : Model Binary64} {before after : List Field} {f : Field}
  {s t : σ} {e : ε}

def Accepts (w : Writer σ ε) : List Field → σ → σ → Prop
  | [], s, t => s = t
  | f :: fs, s, t => ∃ u, w.put f s = .ok u ∧ Accepts w fs u t

theorem putAll_append (h : w.Accepts before s t) (after : List Field) :
    w.putAll (before ++ after) s = w.putAll after t := by
  induction before generalizing s with
  | nil =>
    obtain rfl : s = t := h
    rfl
  | cons f before ih =>
    obtain ⟨u, hput, h⟩ := h
    rw [List.cons_append, putAll, hput]
    exact ih h

theorem persist_of_accepts (h : w.Accepts m.fields s t) : w.persist m s = (w.close t, none) := by
  have hall := putAll_append h []
  rw [List.append_nil] at hall
  rw [persist, hall]
  rfl

theorem persist_of_refused (hfields : m.fields = before ++ f :: after) (h : w.Accepts before s t)
    (hput : w.put f t = .error e) : w.persist m s = (w.close t, some e) := by
  rw [persist, hfields, putAll_append h, putAll, hput]

end Writer

namespace Output

variable {β ε : Type}

theorem put_of_ok {encode : Field → Except ε (List β)} {f : Field} {part : List β}
    (h : encode f = .ok part) (owned : Bool) (o : Output β) :
    (writer encode owned).put f o = .ok { o with parts := part :: o.parts } := by
  simp [writer, h, Except.map]

theorem put_of_error {encode : Field → Except ε (List β)} {f : Field} {e : ε}
    (h : encode f = .error e) (owned : Bool) (o : Output β) :
    (writer encode owned).put f o = .error e := by
  simp [writer, h, Except.map]

theorem accepts_of_encoded {encode : Field → Except ε (List β)} {fs : List Field}
    {parts : List (List β)} (h : fs.map encode = parts.map .ok) (owned : Bool) (o : Output β) :
    (writer encode owned).Accepts fs o ⟨parts.reverse ++ o.parts, o.isOpen⟩ := by
  induction fs generalizing parts o with
  | nil =>
    obtain rfl : parts = [] := List.map_eq_nil_iff.1 h.symm
    rfl
  | cons f fs ih =>
    cases parts with
    | nil => cases h
    | cons part parts =>
      obtain ⟨hf, hfs⟩ := List.cons.inj h
      refine ⟨_, put_of_ok hf owned o, ?_⟩
      have hrest := ih hfs { o with parts := part :: o.parts }
      rwa [List.reverse_cons, List.append_assoc, List.singleton_append]

theorem putAll_of_ok {encode : Field → Except ε (List β)} {part : Field → List β} {fs : List Field}
    (h : ∀ f ∈ fs, encode f = .ok (part f)) (owned : Bool) (o : Output β) :
    (writer encode owned).putAll fs o = (⟨(fs.map part).reverse ++ o.parts, o.isOpen⟩, none) := by
  have hencoded : fs.map encode = (fs.map part).map .ok := by
    rw [List.map_map]
    exact List.map_congr_left h
  have hall := Writer.putAll_append (accepts_of_encoded hencoded owned o) []
  rwa [List.append_nil] at hall

theorem persist_of_ok {encode : Field → Except ε (List β)} {part : Field → List β}
    {m : Model Binary64} (h : ∀ f ∈ m.fields, encode f = .ok (part f)) :
    ∃ o, (writer encode false).persist m .empty = (o, none) ∧ o.isOpen = true ∧
      o.written = m.fields.flatMap part := by
  refine ⟨⟨(m.fields.map part).reverse, true⟩, ?_, rfl, ?_⟩
  · rw [Writer.persist, putAll_of_ok h]
    simp [writer, empty]
  · simp [written, List.flatMap_def]

theorem written_persist_of_ok {encode : Field → Except ε (List β)} {part : Field → List β}
    {m : Model Binary64} (h : ∀ f ∈ m.fields, encode f = .ok (part f)) (owned : Bool) :
    ((writer encode owned).persist m .empty).1.written = m.fields.flatMap part := by
  rw [Writer.persist, putAll_of_ok h]
  cases owned <;> simp [writer, empty, written, List.flatMap_def]

theorem putAll_snd_eq_none_iff {encode : Field → Except ε (List β)} {owned : Bool} {fs : List Field}
    {o : Output β} :
    ((writer encode owned).putAll fs o).2 = none ↔ ∀ f ∈ fs, ∃ part, encode f = .ok part := by
  induction fs generalizing o with
  | nil => simp [Writer.putAll]
  | cons f fs ih =>
    cases hf : encode f with
    | error e => simp [Writer.putAll, put_of_error hf, hf]
    | ok part => simp [Writer.putAll, put_of_ok hf, hf, ih]

theorem persist_snd_eq_none_iff {encode : Field → Except ε (List β)} {owned : Bool}
    {m : Model Binary64} {o : Output β} :
    ((writer encode owned).persist m o).2 = none ↔ ∀ f ∈ m.fields, ∃ part, encode f = .ok part := by
  rw [Writer.persist]
  exact putAll_snd_eq_none_iff

end Output

end MaxEnt
