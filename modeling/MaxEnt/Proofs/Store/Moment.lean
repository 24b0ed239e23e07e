import MaxEnt.Proofs.Numeral.Order
import MaxEnt.Store.Moment

namespace MaxEnt.Moment

open Numeral

variable {a b : Moment}

theorem text_eq (m : Moment) :
    m.text = padded 4 m.year ++ (padded 2 m.month ++ (padded 2 m.day ++ (CodePoint.ofChar '_' ::
      (padded 2 m.hour ++ (padded 2 m.minute ++ (padded 2 m.second ++ (CodePoint.ofChar '_' ::
        (padded 6 m.microsecond ++ [])))))))) := rfl

theorem parts_lt (m : Moment) :
    m.year < 10 ^ 4 ∧ m.month < 10 ^ 2 ∧ m.day < 10 ^ 2 ∧ m.hour < 10 ^ 2 ∧ m.minute < 10 ^ 2 ∧
      m.second < 10 ^ 2 ∧ m.microsecond < 10 ^ 6 := by
  obtain ⟨year, month, day, hour, minute, second, microsecond, hyear, hmonth, hday, hhour, hminute,
    hsecond, hmicrosecond⟩ := m
  simp only
  omega

theorem length_text (m : Moment) : m.text.length = 22 := by
  obtain ⟨hyear, hmonth, hday, hhour, hminute, hsecond, hmicrosecond⟩ := m.parts_lt
  simp only [text_eq, List.length_append, List.length_cons, List.length_nil,
    length_padded (by decide : 0 < 4) hyear, length_padded (by decide : 0 < 2) hmonth,
    length_padded (by decide : 0 < 2) hday, length_padded (by decide : 0 < 2) hhour,
    length_padded (by decide : 0 < 2) hminute, length_padded (by decide : 0 < 2) hsecond,
    length_padded (by decide : 0 < 6) hmicrosecond]

theorem underscore_lt {t u : Text} (h : t < u) :
    CodePoint.ofChar '_' :: t < CodePoint.ofChar '_' :: u :=
  List.cons_lt_cons_iff.2 (.inr ⟨rfl, h⟩)

theorem text_lt (h : a < b) : a.text < b.text := by
  obtain ⟨hyear, hmonth, hday, hhour, hminute, hsecond, hmicrosecond⟩ := a.parts_lt
  obtain ⟨hyear', hmonth', hday', hhour', hminute', hsecond', hmicrosecond'⟩ := b.parts_lt
  have hparts : a.parts < b.parts := h
  simp only [parts, List.cons_lt_cons_iff] at hparts
  rw [text_eq, text_eq]
  refine padded_append_lt (by decide) hyear hyear' (hparts.imp id (And.imp id fun h => ?_))
  refine padded_append_lt (by decide) hmonth hmonth' (h.imp id (And.imp id fun h => ?_))
  refine padded_append_lt (by decide) hday hday' (h.imp id (And.imp id fun h => underscore_lt ?_))
  refine padded_append_lt (by decide) hhour hhour' (h.imp id (And.imp id fun h => ?_))
  refine padded_append_lt (by decide) hminute hminute' (h.imp id (And.imp id fun h => ?_))
  refine padded_append_lt (by decide) hsecond hsecond'
    (h.imp id (And.imp id fun h => underscore_lt ?_))
  exact padded_append_lt (by decide) hmicrosecond hmicrosecond'
    (h.imp id fun h => absurd h.2 (List.not_lt_nil []))

theorem ne_of_lt (h : a < b) : a ≠ b := by
  rintro rfl
  exact List.lt_irrefl a.parts h

theorem eq_of_parts_eq (h : a.parts = b.parts) : a = b := by
  obtain ⟨year, month, day, hour, minute, second, microsecond⟩ := a
  obtain ⟨year', month', day', hour', minute', second', microsecond'⟩ := b
  simp only [parts, List.cons.injEq, and_true] at h
  obtain ⟨rfl, rfl, rfl, rfl, rfl, rfl, rfl⟩ := h
  rfl

theorem text_injective : Function.Injective text := by
  intro a b h
  rcases lt_trichotomy a.parts b.parts with hlt | heq | hgt
  · exact absurd (h ▸ text_lt hlt) (List.lt_irrefl _)
  · exact eq_of_parts_eq heq
  · exact absurd (h ▸ text_lt hgt) (List.lt_irrefl _)

end MaxEnt.Moment
