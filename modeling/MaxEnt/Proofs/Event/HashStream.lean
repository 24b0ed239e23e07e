import MaxEnt.Event.HashStream
import MaxEnt.Proofs.Index.Spool
import MaxEnt.Proofs.Text.ModifiedUtf8

namespace MaxEnt

namespace Text

theorem unpaired_of_hasSurrogate {t : Text} (h : t.hasSurrogate = false) :
    ModifiedUtf8.Unpaired t := by
  apply ModifiedUtf8.unpaired_of_forall
  intro c hc
  have hsurrogate := List.any_eq_false.1 h c hc
  rw [CodePoint.isSurrogate, Bool.not_eq_true, Bool.or_eq_false_iff] at hsurrogate
  exact hsurrogate.1

theorem subset_concat {t : Text} {ts : List Text} (h : t ∈ ts) : t ⊆ Text.concat ts :=
  fun _ hc => List.mem_flatten.2 ⟨t, h, hc⟩

theorem subset_intercalate (separator : Text) {t : Text} {ts : List Text} (h : t ∈ ts) :
    t ⊆ List.intercalate separator ts := by
  induction ts with
  | nil => cases h
  | cons u us ih =>
    cases us with
    | nil =>
      rw [List.mem_singleton.1 h, List.intercalate_singleton]
      exact List.Subset.refl _
    | cons v vs =>
      rw [List.intercalate_cons_cons, List.append_assoc]
      rcases List.mem_cons.1 h with rfl | h
      · exact List.subset_append_left _ _
      · apply List.Subset.trans (ih h)
        exact List.Subset.trans (List.subset_append_right _ _) (List.subset_append_right _ _)

end Text

namespace Event

def Encodable (e : Event) : Prop := e.text.hasSurrogate = false

instance (e : Event) : Decidable e.Encodable := inferInstanceAs (Decidable (_ = _))

theorem subset_text_of_mem_context {e : Event} {name : Text} (h : name ∈ e.context) :
    name ⊆ e.text := by
  have hfeature : ∃ t ∈ e.featureTexts, name ⊆ t := by
    obtain ⟨outcome, features⟩ := e
    cases features with
    | plain names => exact ⟨name, h, List.Subset.refl _⟩
    | valued pairs =>
      obtain ⟨pair, hpair, rfl⟩ := List.mem_map.1 h
      exact ⟨pairText pair, List.mem_map_of_mem hpair, Text.subset_concat (by simp)⟩
  obtain ⟨t, ht, hname⟩ := hfeature
  apply List.Subset.trans hname
  exact List.Subset.trans (Text.subset_intercalate " " ht) (Text.subset_concat (by simp))

theorem Encodable.outcome {e : Event} (h : e.Encodable) : e.outcome.hasSurrogate = false :=
  Text.hasSurrogate_of_subset (Text.subset_concat (by simp)) h

theorem Encodable.context {e : Event} (h : e.Encodable) :
    ∀ name ∈ e.context, name.hasSurrogate = false :=
  fun _ hname => Text.hasSurrogate_of_subset (subset_text_of_mem_context hname) h

theorem Encodable.unpaired {e : Event} (h : e.Encodable) : e.Unpaired :=
  ⟨Text.unpaired_of_hasSurrogate h.outcome,
    fun name hname => Text.unpaired_of_hasSurrogate (h.context name hname)⟩

/-- The digest of events: the MD5 sum of their texts in UTF-8, one after the other, in hexadecimal
digits without zeros in front. -/
def hexSum (events : List Event) : Text :=
  Hex.ofNat (BigEndian.toNat (Md5.digest (events.flatMap fun e => (Utf8.encode e.text).getD [])))

end Event

namespace HashStream

variable {ε : Type} {failure : Option ε} {handed : List Event} {exhausted : Bool}

theorem drainWithin_cons {e : Event} (he : e.Encodable) (fuel : Nat) (es : List Event) :
    drainWithin (fuel + 1) ⟨⟨e :: es, failure⟩, handed, exhausted⟩ =
      let (d, s) := drainWithin fuel ⟨⟨es, failure⟩, e :: handed, exhausted⟩
      (⟨e :: d.items, d.failure⟩, s) := by
  have htext : e.text.hasSurrogate = false := he
  simp only [drainWithin, next, htext, Bool.false_eq_true, if_false]

theorem drainWithin_of_encodable {fuel : Nat} {events : List Event}
    (h : ∀ e ∈ events, e.Encodable) (hfuel : events.length < fuel) :
    drainWithin fuel ⟨⟨events, failure⟩, handed, exhausted⟩ = (⟨events, failure.map .failed⟩,
      ⟨⟨[], none⟩, events.reverse ++ handed, exhausted || failure.isNone⟩) := by
  -- There is a request for each event, and one more that finds none.
  induction fuel generalizing events handed with
  | zero => cases hfuel
  | succ fuel ih =>
    cases events with
    | nil => cases failure <;> simp [drainWithin, next]
    | cons e es =>
      obtain ⟨he, hes⟩ := List.forall_mem_cons.1 h
      rw [drainWithin_cons he, ih hes (Nat.lt_of_succ_lt_succ hfuel)]
      simp

theorem encodable_of_drainWithin {fuel : Nat} {events : List Event} (hfuel : events.length < fuel)
    (h : (drainWithin fuel ⟨⟨events, failure⟩, handed, exhausted⟩).1.failure = none) :
    ∀ e ∈ events, e.Encodable := by
  induction fuel generalizing events handed with
  | zero => cases hfuel
  | succ fuel ih =>
    cases events with
    | nil => simp
    | cons e es =>
      by_cases he : e.Encodable
      · rw [drainWithin_cons he] at h
        exact List.forall_mem_cons.2 ⟨he, ih (Nat.lt_of_succ_lt_succ hfuel) h⟩
      · have htext : e.text.hasSurrogate = true := by simpa [Event.Encodable] using he
        simp [drainWithin, next, htext] at h

theorem drain_of_encodable {events : Drain ε Event} (h : ∀ e ∈ events.items, e.Encodable) :
    (start events).drain = (events.mapFailure .failed,
      ⟨⟨[], none⟩, events.items.reverse, events.failure.isNone⟩) := by
  obtain ⟨items, failure⟩ := events
  rw [drain, start, drainWithin_of_encodable h (Nat.lt_succ_self _), List.append_nil]
  rfl

theorem encodable_of_drain {events : Drain ε Event} (h : (start events).drain.1.failure = none) :
    ∀ e ∈ events.items, e.Encodable := encodable_of_drainWithin (Nat.lt_succ_self _) h

theorem hexSum?_exhausted (events : List Event) :
    (⟨⟨[], none⟩, events.reverse, true⟩ : HashStream ε).hexSum? = some (Event.hexSum events) := by
  rw [hexSum?, hashSum?, if_pos rfl, digested, List.reverse_reverse]
  rfl

end HashStream

end MaxEnt
