import MaxEnt.Files.Glob

namespace MaxEnt.Glob

/-- No part of the text stands for anything but itself. -/
def Literal (t : Text) : Prop := ∀ c ∈ t, c ≠ ↑ '*' ∧ c ≠ ↑ '?' ∧ c ≠ ↑ '['

theorem mem_tails {t u : Text} : u ∈ tails t ↔ ∃ front, t = front ++ u := by
  induction t with
  | nil => simp [tails, eq_comm]
  | cons c t ih =>
    rw [tails, List.mem_cons, ih]
    constructor
    · rintro (rfl | ⟨front, rfl⟩)
      · exact ⟨[], rfl⟩
      · exact ⟨c :: front, rfl⟩
    · rintro ⟨front, h⟩
      cases front with
      | nil => exact .inl h.symm
      | cons d front => exact .inr ⟨front, (List.cons.inj h).2⟩

theorem accepts_star (g : Glob) (t : Text) :
    accepts (.star :: g) t = true ↔ ∃ front rest, t = front ++ rest ∧ accepts g rest = true := by
  rw [accepts, List.any_eq_true]
  constructor
  · rintro ⟨rest, hrest, hg⟩
    obtain ⟨front, rfl⟩ := mem_tails.1 hrest
    exact ⟨front, rest, rfl, hg⟩
  · rintro ⟨front, rest, rfl, hg⟩
    exact ⟨rest, mem_tails.2 ⟨front, rfl⟩, hg⟩

theorem accepts_literal (front : Text) (g : Glob) (t : Text) :
    accepts (front.map .one ++ g) t = true ↔ ∃ rest, t = front ++ rest ∧ accepts g rest = true := by
  induction front generalizing t with
  | nil => simp
  | cons c front ih =>
    rw [List.map_cons, List.cons_append]
    cases t with
    | nil => simp [accepts]
    | cons d t =>
      have hstep : accepts (.one c :: (front.map .one ++ g)) (d :: t) = true ↔
          c = d ∧ accepts (front.map .one ++ g) t = true := by
        simp [accepts, Token.accepts]
      rw [hstep, ih]
      simp only [List.cons_append, List.cons.injEq]
      constructor
      · rintro ⟨rfl, rest, ht, hg⟩
        exact ⟨rest, ⟨rfl, ht⟩, hg⟩
      · rintro ⟨rest, ⟨rfl, ht⟩, hg⟩
        exact ⟨rfl, rest, ht, hg⟩

theorem ofTextWithin_literal {t : Text} (h : Literal t) {fuel : Nat} (hfuel : t.length ≤ fuel)
    (rest : Text) :
    ofTextWithin fuel (t ++ rest) = t.map .one ++ ofTextWithin (fuel - t.length) rest := by
  induction t generalizing fuel with
  | nil => rfl
  | cons c t ih =>
    obtain ⟨hc, ht⟩ := List.forall_mem_cons.1 h
    rw [List.length_cons] at hfuel
    obtain ⟨spent, rfl⟩ : ∃ spent, fuel = spent + 1 := Nat.exists_eq_succ_of_ne_zero (by omega)
    rw [List.cons_append, ofTextWithin, if_neg hc.1, if_neg hc.2.1, if_neg hc.2.2,
      ih ht (by omega), List.length_cons, Nat.add_sub_add_right]
    rfl

theorem accepts_ofText {front last : Text} (hfront : Literal front) (hlast : Literal last) (t : Text) :
    (ofText (front ++ ↑ '*' :: last)).accepts t = true ↔ ∃ middle, t = front ++ (middle ++ last) := by
  have hlength : (front ++ ↑ '*' :: last).length - front.length = last.length + 1 := by
    rw [List.length_append, List.length_cons]
    omega
  have hparts : ofText (front ++ ↑ '*' :: last) = front.map .one ++ .star :: last.map .one := by
    have hend := ofTextWithin_literal hlast (Nat.le_refl _) []
    rw [List.append_nil, Nat.sub_self, ofTextWithin, List.append_nil] at hend
    rw [ofText, ofTextWithin_literal hfront (by simp), hlength, ofTextWithin, if_pos rfl, hend]
  have haccepts := accepts_literal last []
  simp only [List.append_nil] at haccepts
  rw [hparts, accepts_literal]
  simp only [accepts_star, haccepts]
  constructor
  · rintro ⟨rest, rfl, middle, last', rfl, u, rfl, hu⟩
    obtain rfl : u = [] := by simpa [accepts] using hu
    exact ⟨middle, by rw [List.append_nil]⟩
  · rintro ⟨middle, rfl⟩
    exact ⟨middle ++ last, rfl, middle, last, rfl, [], by rw [List.append_nil], rfl⟩

end MaxEnt.Glob
