import MaxEnt.Proofs.Model.Layout
import MaxEnt.Proofs.Numeral.Grammar

namespace MaxEnt.GroupPattern

variable {token : Text} {p : GroupPattern}

theorem ofToken?_eq_some_iff : ofToken? token = some p ↔
    (Text.splitOn ' ' token).mapM Numeral.integer? = some ((p.count : Int) :: p.outcomes) := by
  rw [ofToken?]
  constructor
  · intro h
    split at h
    · rename_i count outcomes hread
      split at h
      · cases h
      · rename_i hcount
        obtain rfl := Option.some.inj h
        rw [hread, Int.toNat_of_nonneg (Int.not_lt.1 hcount)]
    · cases h
  · intro h
    simp [h]

theorem ofToken?_eq_some_iff_forall₂ : ofToken? token = some p ↔
    List.Forall₂ Numeral.IsInteger (Text.splitOn ' ' token) ((p.count : Int) :: p.outcomes) := by
  rw [ofToken?_eq_some_iff, Numeral.mapM_eq_some_iff]
  simp only [Numeral.integer?_eq_some_iff]

theorem ofToken?_eq_none_iff : ofToken? token = none ↔
    (∃ piece ∈ Text.splitOn ' ' token, Numeral.integer? piece = none) ∨
      ∃ piece ∈ (Text.splitOn ' ' token).head?, ∃ n < 0, Numeral.integer? piece = some n := by
  obtain ⟨first, rest, hsplit⟩ := List.exists_cons_of_ne_nil (Text.splitOn_ne_nil ' ' token)
  rw [← Numeral.mapM_eq_none_iff, ofToken?, hsplit, List.mapM_cons]
  cases hfirst : Numeral.integer? first with
  | none => simp
  | some n =>
    cases rest.mapM Numeral.integer? with
    | none => simp
    | some outcomes => simp [hfirst]

theorem ofToken_eq_ok_iff : ofToken token = .ok p ↔ ofToken? token = some p := by
  rw [ofToken]
  cases ofToken? token <;> simp

theorem ofToken_eq_error_iff {e : ReadError} :
    ofToken token = .error e ↔ ofToken? token = none ∧ e = .noPattern token := by
  rw [ofToken]
  cases ofToken? token <;> simp [eq_comm]

theorem natAbs_lt_of_ofToken? (h : ofToken? token = some p) :
    p.count < 10 ^ Numeral.maxDigits ∧ ∀ o ∈ p.outcomes, o.natAbs < 10 ^ Numeral.maxDigits := by
  have hnumbers := (ofToken?_eq_some_iff_forall₂.1 h).flip.imp
    fun _ _ hn => And.intro (Numeral.IsInteger.natAbs_lt hn) hn
  simpa using List.forall_mem_cons.1 ((List.forall₂_and_left _ _).1 hnumbers).1

/-- The token of a group is read as the number of its members and their outcomes. Any text is cut at
each of its blanks and read as the integers between them; it is refused where a piece is no integer or
the first is below zero. The pattern that is read has a token of its own, which is read as the same
pattern. -/
theorem ofToken_normalises :
    (∀ (ps : List NamedPredicate) (g : PredicateGroup), g ∈ PredicateGroup.ofList ps →
      (Numeral.digits g.members.length).length ≤ Numeral.maxDigits →
      (∀ o ∈ g.outcomes, (Numeral.digits o.natAbs).length ≤ Numeral.maxDigits) →
      g.members ≠ [] ∧ (∀ q ∈ g.members, q.outcomes = g.outcomes) ∧
        ofToken g.token = .ok ⟨g.members.length, g.outcomes⟩) ∧
    ∀ token : Text, ∃ pieces : List Text, pieces ≠ [] ∧ (∀ piece ∈ pieces, ↑ ' ' ∉ piece) ∧
      List.intercalate [↑ ' '] pieces = token ∧
      (∀ p, ofToken token = .ok p ↔
        List.Forall₂ Numeral.IsInteger pieces ((p.count : Int) :: p.outcomes)) ∧
      (∀ e, ofToken token = .error e ↔ e = .noPattern token ∧
        ((∃ piece ∈ pieces, ∀ n, ¬ Numeral.IsInteger piece n) ∨
          ∃ piece ∈ pieces.head?, ∃ n < 0, Numeral.IsInteger piece n)) ∧
      ∀ p, ofToken token = .ok p → ofToken p.token = .ok p := by
  refine ⟨fun ps g hg hcount houtcomes => ?_, fun token => ⟨Text.splitOn ' ' token,
    Text.splitOn_ne_nil _ _, fun _ => Text.not_mem_of_mem_splitOn, Text.intercalate_splitOn _ _,
    fun p => ?_, fun e => ?_, fun p hp => ?_⟩⟩
  · have hruns := PredicateGroup.runs_ofList ps
    refine ⟨hruns.nonempty g hg, hruns.outcomes g hg, ofToken_eq_ok_iff.2 ?_⟩
    exact PredicateGroup.ofToken?_token (Numeral.lt_pow_of_length_digits hcount)
      fun o ho => Numeral.lt_pow_of_length_digits (houtcomes o ho)
  · rw [ofToken_eq_ok_iff, ofToken?_eq_some_iff_forall₂]
  · rw [ofToken_eq_error_iff, ofToken?_eq_none_iff, and_comm]
    simp only [Numeral.integer?_eq_none_iff, Numeral.integer?_eq_some_iff]
  · obtain ⟨hcount, houtcomes⟩ := natAbs_lt_of_ofToken? (ofToken_eq_ok_iff.1 hp)
    exact ofToken_eq_ok_iff.2 (ofToken?_token hcount houtcomes)

def oddGroup : PredicateGroup :=
  ⟨[-1, 30, 30], [⟨"p", [-1, 30, 30], [.one]⟩, ⟨[], [-1, 30, 30], []⟩]⟩

def oddPredicates : List NamedPredicate := ⟨"q", [], []⟩ :: oddGroup.members

/-- Signs, zeros in front, an underscore, a digit that is no ASCII and blanks that divide nothing. -/
def looseToken : Text := Text.concat ["\t+0_3 ", [0x665, 0xA0], " -0"]

def loosePattern : GroupPattern := ⟨3, [5, 0]⟩

theorem ofToken_normalises_looseToken :
    (oddGroup ∈ PredicateGroup.ofList oddPredicates ∧
      (Numeral.digits oddGroup.members.length).length ≤ Numeral.maxDigits ∧
      (∀ o ∈ oddGroup.outcomes, (Numeral.digits o.natAbs).length ≤ Numeral.maxDigits) ∧
      oddGroup.token = "2 -1 30 30" ∧ ofToken oddGroup.token = .ok ⟨2, [-1, 30, 30]⟩) ∧
    (ofToken looseToken = .ok loosePattern ∧ loosePattern.token = "3 5 0" ∧
      ofToken loosePattern.token = .ok loosePattern) ∧
    ofToken "2  1" = .error (.noPattern "2  1") ∧ ofToken "-1 0" = .error (.noPattern "-1 0") := by
  obtain ⟨hgroups, htokens⟩ := ofToken_normalises
  have hgroup : oddGroup ∈ PredicateGroup.ofList oddPredicates := .tail _ (.head _)
  have hsmall : ∀ n : Nat, n < 10 ^ 2 → (Numeral.digits n).length ≤ Numeral.maxDigits := fun n hn =>
    (Numeral.length_digits_le (by decide) hn).trans (by decide)
  have hcount := hsmall oddGroup.members.length (by decide)
  have houtcomes : ∀ o ∈ oddGroup.outcomes, (Numeral.digits o.natAbs).length ≤ Numeral.maxDigits := by
    have hall : ∀ o ∈ oddGroup.outcomes, o.natAbs < 10 ^ 2 := by decide
    exact fun o ho => hsmall _ (hall o ho)
  obtain ⟨-, -, hread⟩ := hgroups oddPredicates oddGroup hgroup hcount houtcomes
  have hloose : ofToken looseToken = .ok loosePattern := by decide +kernel
  obtain ⟨_, -, -, -, -, -, hagain⟩ := htokens looseToken
  exact ⟨⟨hgroup, hcount, houtcomes, by cbv, hread⟩, ⟨hloose, by cbv, hagain _ hloose⟩,
    by decide +kernel, by decide +kernel⟩

end MaxEnt.GroupPattern
