import MaxEnt.Proofs.Text.Pieces
import MaxEnt.Proofs.Text.Utf8
import MaxEnt.TextFile

namespace MaxEnt

theorem prefix_append_cases {α : Type} {p xs ys : List α} (h : p <+: xs ++ ys) :
    p <+: xs ∧ p ≠ xs ∨ ∃ q, p = xs ++ q ∧ q <+: ys := by
  by_cases hxs : xs <+: p
  · obtain ⟨q, rfl⟩ := hxs
    exact .inr ⟨q, rfl, (List.prefix_append_right_inj xs).1 h⟩
  · have hp := (List.prefix_or_prefix_of_prefix h (List.prefix_append xs ys)).resolve_right hxs
    exact .inl ⟨hp, fun he => hxs (he ▸ List.prefix_refl _)⟩

namespace Text

def ended (ls : List Text) : Text := ls.flatMap (· ++ ↑ "\n")

theorem lines_cons (c : CodePoint) (t : Text) : lines (c :: t) = cutStep '\n' c (lines t) := rfl

theorem lines_append {l : Text} (h : ↑ '\n' ∉ l) (t : Text) : lines (l ++ ↑ '\n' :: t) = l :: lines t := by
  induction l with
  | nil => simp [lines_cons, cutStep]
  | cons c l ih =>
    have hc : ¬ c = ↑ '\n' := fun he => h (by simp [he])
    rw [List.cons_append, lines_cons, ih fun hm => h (List.mem_cons_of_mem c hm), cutStep, if_neg hc]

theorem lines_ended_append {ls : List Text} (h : ∀ l ∈ ls, ↑ '\n' ∉ l) (t : Text) :
    lines (ended ls ++ t) = ls ++ lines t := by
  induction ls with
  | nil => rfl
  | cons l ls ih =>
    have hended : ended (l :: ls) ++ t = l ++ ↑ '\n' :: (ended ls ++ t) := by
      simp only [ended, List.flatMap_cons, List.append_assoc]
      rfl
    rw [hended, lines_append (h l (by simp)), ih fun k hk => h k (List.mem_cons_of_mem l hk),
      List.cons_append]

theorem lines_ended {ls : List Text} (h : ∀ l ∈ ls, ↑ '\n' ∉ l) : lines (ended ls) = ls := by
  have hlines := lines_ended_append h []
  rwa [List.append_nil, show lines [] = [] from rfl, List.append_nil] at hlines

theorem lines_of_not_mem {t : Text} (h : ↑ '\n' ∉ t) (hne : t ≠ []) : lines t = [t] := by
  induction t with
  | nil => exact absurd rfl hne
  | cons c t ih =>
    have hc : ¬ c = ↑ '\n' := fun he => h (by simp [he])
    by_cases ht : t = []
    · subst ht
      rw [lines_cons, show lines [] = [] from rfl, cutStep, if_neg hc]
    · rw [lines_cons, ih (fun hm => h (List.mem_cons_of_mem c hm)) ht, cutStep, if_neg hc]

theorem prefix_ended {ls : List Text} {p : Text} (h : p <+: ended ls) (hne : p ≠ ended ls) :
    ∃ before l after c, ls = before ++ l :: after ∧ c <+: l ∧ p = ended before ++ c := by
  induction ls generalizing p with
  | nil => exact absurd (List.prefix_nil.1 h) hne
  | cons l ls ih =>
    have hended : ended (l :: ls) = l ++ ↑ "\n" ++ ended ls := rfl
    rw [hended] at h hne
    obtain ⟨hp, hproper⟩ | ⟨q, rfl, hq⟩ := prefix_append_cases h
    · have hl : p <+: l := (List.prefix_concat_iff.1 hp).resolve_left hproper
      exact ⟨[], l, ls, p, rfl, hl, rfl⟩
    · obtain ⟨before, k, after, c, rfl, hc, rfl⟩ := ih hq fun he => hne (by rw [he])
      refine ⟨l :: before, k, after, c, rfl, hc, ?_⟩
      rw [← List.append_assoc]
      rfl

theorem unifyNewlines_of_not_mem {t : Text} (h : ↑ '\r' ∉ t) : unifyNewlines t = t := by
  induction t with
  | nil => rfl
  | cons c t ih =>
    have hc : ¬ c = ↑ '\r' := fun he => h (by simp [he])
    have ht := ih fun hm => h (List.mem_cons_of_mem c hm)
    rw [unifyNewlines, List.foldr_cons, unifyNewlines.step, if_neg hc]
    exact congrArg (c :: ·) ht

theorem hasSurrogate_of_subset {t u : Text} (h : t ⊆ u) (hu : u.hasSurrogate = false) :
    t.hasSurrogate = false :=
  List.any_eq_false.2 fun c hc => List.any_eq_false.1 hu c (h hc)

theorem hasSurrogate_ended {ls : List Text} (h : ∀ l ∈ ls, l.hasSurrogate = false) :
    (ended ls).hasSurrogate = false := by
  rw [hasSurrogate, List.any_eq_false]
  intro c hc
  obtain ⟨l, hl, hcl⟩ := List.mem_flatMap.1 hc
  rcases List.mem_append.1 hcl with hcl | hcl
  · exact List.any_eq_false.1 (h l hl) c hcl
  · rw [List.mem_singleton.1 hcl]
    decide

theorem not_mem_ended {c : CodePoint} (hc : c ≠ ↑ '\n') {ls : List Text} (h : ∀ l ∈ ls, c ∉ l) :
    c ∉ ended ls := by
  intro hm
  obtain ⟨l, hl, hcl⟩ := List.mem_flatMap.1 hm
  rcases List.mem_append.1 hcl with hcl | hcl
  · exact h l hl hcl
  · exact hc (List.mem_singleton.1 hcl)

end Text

namespace Lines

variable {ls : List Text}

theorem ofText_ended (h : ∀ l ∈ ls, ↑ '\n' ∉ l) : ofText (Text.ended ls) = ⟨ls, false⟩ := by
  rw [ofText, Text.lines_ended h]

theorem ofBytes_of_encode {t : Text} {bytes : List UInt8} (h : Utf8.encode t = some bytes) :
    ofBytes bytes = ⟨(Text.unifyNewlines t).lines, false⟩ := by
  rw [ofBytes, Utf8.decodeUpToFault_of_encode h]

theorem ofBytes_eq_ofText {t : Text} {bytes : List UInt8} (hbytes : Utf8.encode t = some bytes)
    (hreturn : ↑ '\r' ∉ t) : ofBytes bytes = ofText t := by
  rw [ofBytes_of_encode hbytes, Text.unifyNewlines_of_not_mem hreturn, ofText]

theorem ofBytes_ended (hfeed : ∀ l ∈ ls, ↑ '\n' ∉ l) (hreturn : ∀ l ∈ ls, ↑ '\r' ∉ l)
    (hsurrogate : ∀ l ∈ ls, l.hasSurrogate = false) :
    ∃ bytes, Utf8.encode (Text.ended ls) = some bytes ∧ ofBytes bytes = ⟨ls, false⟩ := by
  obtain ⟨bytes, hbytes, -⟩ := Utf8.decodeUpToFault_encode (Text.hasSurrogate_ended hsurrogate)
  refine ⟨bytes, hbytes, ?_⟩
  rw [ofBytes_eq_ofText hbytes (Text.not_mem_ended (by decide) hreturn), ofText_ended hfeed]

end Lines

end MaxEnt
