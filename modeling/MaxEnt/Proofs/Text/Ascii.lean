import MaxEnt.Text.Basic

namespace MaxEnt

theorem CodePoint.isSurrogate_of_lt {c : CodePoint} (h : c.val < 0xD800) : c.isSurrogate = false := by
  simp only [isSurrogate, isHighSurrogate, isLowSurrogate, Bool.or_eq_false_iff,
    Bool.and_eq_false_imp, decide_eq_true_eq, decide_eq_false_iff_not]
  omega

namespace Text

def Ascii (t : Text) : Prop := ∀ c ∈ t, 32 ≤ c.val ∧ c.val ≤ 126

instance (t : Text) : Decidable (Ascii t) :=
  decidable_of_iff (t.all fun c => 32 ≤ c.val && c.val ≤ 126) (by simp [Ascii])

namespace Ascii

theorem nil : Ascii [] := by simp [Ascii]

theorem cons {c : CodePoint} {t : Text} (ht : Ascii t) (hc : 32 ≤ c.val ∧ c.val ≤ 126) :
    Ascii (c :: t) := List.forall_mem_cons.2 ⟨hc, ht⟩

theorem append {t u : Text} (ht : Ascii t) (hu : Ascii u) : Ascii (t ++ u) :=
  List.forall_mem_append.2 ⟨ht, hu⟩

theorem flatMap {α : Type} {f : α → Text} {xs : List α} (h : ∀ x ∈ xs, Ascii (f x)) :
    Ascii (xs.flatMap f) := by
  intro c hc
  obtain ⟨x, hx, hcx⟩ := List.mem_flatMap.1 hc
  exact h x hx c hcx

theorem not_mem {t : Text} (h : Ascii t) {c : CodePoint} (hc : ¬ (32 ≤ c.val ∧ c.val ≤ 126)) :
    c ∉ t := fun hm => hc (h c hm)

theorem hasSurrogate {t : Text} (h : Ascii t) : t.hasSurrogate = false := by
  rw [Text.hasSurrogate, List.any_eq_false]
  intro c hc
  have hval := h c hc
  simp [CodePoint.isSurrogate_of_lt (c := c) (by omega)]

end Ascii

end Text

end MaxEnt
