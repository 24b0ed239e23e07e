import MaxEnt.Proofs.Event.File
import MaxEnt.Proofs.Event.HashStream

namespace MaxEnt

/-- A text that is not empty and that holds nothing that parts the text of an event. -/
def Text.Bare (t : Text) : Prop := t ≠ [] ∧ ↑ ' ' ∉ t ∧ ↑ '[' ∉ t ∧ ↑ ']' ∉ t

instance (t : Text) : Decidable t.Bare := inferInstanceAs (Decidable (_ ∧ _))

namespace Event

def Bare (e : Event) : Prop := e.values = none ∧ e.EveryText Text.Bare

instance (e : Event) : Decidable e.Bare := inferInstanceAs (Decidable (_ ∧ _))

variable {a b : Event} {as bs : List Event}

theorem text_append_eq (h : a.values = none) (u : Text) : a.text ++ u =
    a.outcome ++ ↑ ' ' :: ↑ '[' :: (List.intercalate ↑ " " a.context ++ ↑ ']' :: u) := by
  rw [text, featureTexts_of_values h]
  simp only [Text.concat, List.flatten_cons, List.flatten_nil, List.append_nil, List.append_assoc]
  rfl

theorem Bare.not_mem_intercalate (h : a.Bare) : ↑ ']' ∉ List.intercalate ↑ " " a.context := by
  have hparts : ∀ t ∈ a.context, ∀ c ∈ t, c ≠ ↑ ']' :=
    fun t ht c hc he => (h.2.2 t ht).2.2.2 (he ▸ hc)
  intro hmem
  exact Text.forall_mem_intercalate (List.forall_mem_singleton.2 (by decide)) hparts _ hmem rfl

/-- The text of an event shows where it ends and what the event is. -/
theorem text_append_inj (ha : a.Bare) (hb : b.Bare) {u v : Text} (h : a.text ++ u = b.text ++ v) :
    a = b ∧ u = v := by
  rw [text_append_eq ha.1, text_append_eq hb.1] at h
  obtain ⟨houtcome, hrest⟩ := Text.append_separator_inj ha.2.1.2.1 hb.2.1.2.1 h
  obtain ⟨hcontext, hrest⟩ := Text.append_separator_inj ha.not_mem_intercalate
    hb.not_mem_intercalate (List.cons.inj hrest).2
  have hsame : a.context = b.context :=
    Text.intercalate_inj (fun t ht => ⟨(ha.2.2 t ht).1, (ha.2.2 t ht).2.1⟩)
      (fun t ht => ⟨(hb.2.2 t ht).1, (hb.2.2 t ht).2.1⟩) hcontext
  have hevents : a = b := by
    rw [← ofWords_of_values ha.1, ← ofWords_of_values hb.1, houtcome, hsame]
  exact ⟨hevents, hrest⟩

theorem text_ne_nil (e : Event) : e.text ≠ [] := by
  have hbracket : CodePoint.ofChar ']' ∈ e.text := Text.subset_concat
    (t := Text.ofString "]") (by simp) (List.mem_singleton_self _)
  exact List.ne_nil_of_mem hbracket

theorem flatMap_text_inj (ha : ∀ e ∈ as, e.Bare) (hb : ∀ e ∈ bs, e.Bare)
    (h : as.flatMap text = bs.flatMap text) : as = bs := by
  induction as generalizing bs with
  | nil =>
    cases bs with
    | nil => rfl
    | cons b bs => exact absurd (List.append_eq_nil_iff.1 h.symm).1 b.text_ne_nil
  | cons a as ih =>
    obtain ⟨haFirst, haRest⟩ := List.forall_mem_cons.1 ha
    cases bs with
    | nil => exact absurd (List.append_eq_nil_iff.1 h).1 a.text_ne_nil
    | cons b bs =>
      obtain ⟨hbFirst, hbRest⟩ := List.forall_mem_cons.1 hb
      obtain ⟨rfl, hrest⟩ := text_append_inj haFirst hbFirst h
      rw [ih haRest hbRest hrest]

theorem encode_flatMap_text (h : ∀ e ∈ as, e.Encodable) :
    Utf8.encode (as.flatMap text) = some (as.flatMap fun e => e.bytes?.getD []) := by
  have hsurrogate : Text.hasSurrogate (as.flatMap text) = false := by
    rw [Text.hasSurrogate, List.any_flatMap, List.any_eq_false]
    exact fun e he => Bool.eq_false_iff.1 (h e he)
  have hbytes : ∀ e ∈ as, e.bytes?.getD [] =
      e.text.flatMap fun c => (Utf8.encodeCodePoint c).getD [] := fun e he => by
    rw [bytes?, Utf8.encode_of_hasSurrogate (h e he), Option.getD_some]
  rw [Utf8.encode_of_hasSurrogate hsurrogate, List.flatMap_assoc, List.flatMap_congr hbytes]

end Event

namespace HashStream

variable {ε : Type} {as bs : List Event}

theorem digested_drain (h : ∀ e ∈ as, e.Encodable) :
    (start (.ofList as : Drain ε Event)).drain.2.digested = as.flatMap fun e => e.bytes?.getD [] := by
  rw [drain_of_encodable h, digested, List.reverse_reverse]
  rfl

/-- The texts of events without values, one after the other, tell the events and their order, unless
an outcome or a predicate is empty or has a blank or a bracket in it. What is digested of events that
can be encoded are the bytes of these texts, so that it tells the events too. -/
theorem digested_inj (ha : ∀ e ∈ as, e.Bare) (hb : ∀ e ∈ bs, e.Bare) :
    (as.flatMap Event.text = bs.flatMap Event.text ↔ as = bs) ∧
    ((∀ e ∈ as, e.Encodable) → (∀ e ∈ bs, e.Encodable) →
      let covered (es : List Event) := (start (.ofList es : Drain ε Event)).drain.2.digested
      Utf8.encode (as.flatMap Event.text) = some (covered as) ∧ (covered as = covered bs ↔ as = bs)) := by
  have htexts : as.flatMap Event.text = bs.flatMap Event.text ↔ as = bs :=
    ⟨Event.flatMap_text_inj ha hb, fun h => by rw [h]⟩
  refine ⟨htexts, fun hea heb => ?_⟩
  simp only [digested_drain hea, digested_drain heb]
  have hasBytes := Event.encode_flatMap_text hea
  refine ⟨hasBytes, fun hsame => ?_, fun h => by rw [h]⟩
  rw [hsame] at hasBytes
  exact htexts.1 (Utf8.encode_inj hasBytes (Event.encode_flatMap_text heb))

def apart : List Event := [⟨"A", .plain ["x", "y"]⟩, ⟨"B", .plain []⟩]

def joined : List Event := [⟨"A", .plain ["xy"]⟩, ⟨"B", .plain []⟩]

theorem digested_inj_apart :
    ((∀ e ∈ apart, e.Bare ∧ e.Encodable) ∧ ∀ e ∈ joined, e.Bare ∧ e.Encodable) ∧
    apart.flatMap Event.text ≠ joined.flatMap Event.text ∧
    (start (.ofList apart : Drain Empty Event)).drain.2.digested ≠
      (start (.ofList joined : Drain Empty Event)).drain.2.digested := by
  have hapart : ∀ e ∈ apart, e.Bare ∧ e.Encodable := by decide
  have hjoined : ∀ e ∈ joined, e.Bare ∧ e.Encodable := by decide
  have hdiffer : apart ≠ joined := by decide
  obtain ⟨htexts, hdigested⟩ := @digested_inj Empty _ _ (fun e he => (hapart e he).1)
    fun e he => (hjoined e he).1
  obtain ⟨-, hcovered⟩ := hdigested (fun e he => (hapart e he).2) fun e he => (hjoined e he).2
  exact ⟨⟨hapart, hjoined⟩, mt htexts.1 hdiffer, mt hcovered.1 hdiffer⟩

end HashStream

end MaxEnt
