import Mathlib.Order.Bounds.Basic
import MaxEnt.Proofs.Binary64.Sign
import MaxEnt.Proofs.Except
import MaxEnt.Proofs.Training.Trained

namespace MaxEnt

namespace Scaling

section

variable {κ : Type} [Scalar κ] (s : Scaling κ)

def after : Nat → Array (List κ)
  | 0 => s.start
  | k + 1 => s.improve (s.probabilities (after k)) (after k)

/-- The likelihood that step `k` begins with: that of the weights after the steps before it. -/
def likelihoodAt (k : Nat) : κ := s.likelihood (s.probabilities (s.after (k - 1)))

/-- Step `k` is not the first, and the likelihood that it begins with differs by less than the
threshold from that of the step before. -/
def Settles (threshold : κ) (k : Nat) : Prop :=
  2 ≤ k ∧ Scalar.lt (distance (s.likelihoodAt k) (s.likelihoodAt (k - 1))) threshold = true

/-- Of at most `most` steps, `last` is the first that settles or, where none does, the last. -/
def EndsAt (threshold : κ) (most last : Nat) : Prop :=
  IsLeast {k | k ≤ most ∧ s.Settles threshold k} last ∨
    (∀ k ≤ most, ¬ s.Settles threshold k) ∧ last = most

def falls (k : Nat) : Bool := Scalar.lt (s.likelihoodAt k) (s.likelihoodAt (k - 1))

/-- The steps up to `last`, without the first, that begin with a lower likelihood than the one before. -/
def divergences (last : Nat) : List Nat := (List.range' 2 (last - 1)).filter s.falls

def resultAfter (last : Nat) : Result κ :=
  ⟨s.after last, last, s.likelihoodAt last, s.divergences last⟩

variable {s} {threshold : κ} {most last more later : Nat}

theorem EndsAt.le (h : s.EndsAt threshold most last) : last ≤ most := by
  rcases h with h | ⟨-, rfl⟩
  · exact h.1.1
  · exact Nat.le_refl _

theorem EndsAt.unique (h : s.EndsAt threshold most last) (h' : s.EndsAt threshold most later) :
    last = later := by
  rcases h with h | ⟨hnone, rfl⟩
  · rcases h' with h' | ⟨hnone', -⟩
    · exact h.unique h'
    · exact absurd h.1.2 (hnone' _ h.1.1)
  · rcases h' with h' | ⟨-, rfl⟩
    · exact absurd h'.1.2 (hnone _ h'.1.1)
    · rfl

theorem EndsAt.of_settles (h : s.EndsAt threshold most last)
    (hsettles : ∃ k ≤ most, s.Settles threshold k) (hle : most ≤ more) :
    s.EndsAt threshold more last := by
  obtain ⟨k, hk, hks⟩ := hsettles
  rcases h with ⟨⟨hlast, hlasts⟩, hleast⟩ | ⟨hnone, -⟩
  · refine .inl ⟨⟨hlast.trans hle, hlasts⟩, ?_⟩
    rintro j ⟨-, hjs⟩
    by_cases hj : j ≤ most
    · exact hleast ⟨hj, hjs⟩
    · omega
  · exact absurd hks (hnone k hk)

theorem EndsAt.mono (h : s.EndsAt threshold most last) (h' : s.EndsAt threshold more later)
    (hle : most ≤ more) : last ≤ later := by
  by_cases hlater : later ≤ most
  · rcases h' with h' | ⟨-, rfl⟩
    · rcases h with h | ⟨hnone, -⟩
      · exact h.2 ⟨hlater, h'.1.2⟩
      · exact absurd h'.1.2 (hnone later hlater)
    · exact h.le.trans hle
  · exact h.le.trans (by omega)

theorem prefix_divergences (h : last ≤ later) : s.divergences last <+: s.divergences later := by
  apply List.IsPrefix.filter
  obtain ⟨n, hn⟩ : ∃ n, last - 1 + n = later - 1 := ⟨later - 1 - (last - 1), by omega⟩
  rw [← hn, ← List.range'_append_1]
  exact List.prefix_append ..

/-- Behind steps of which none settles, a run goes on to the first one that does or to its last. -/
theorem run_from (left : Nat) {done : Nat} (hbefore : ∀ k ≤ done, ¬ s.Settles threshold k) :
    1 ≤ done → ∃ last, s.EndsAt threshold (done + left) last ∧ done ≤ last ∧
      s.run threshold left done (some (s.likelihoodAt done)) (s.after done) =
        ⟨s.after last, last, s.likelihoodAt last,
          (List.range' (done + 1) (last - done)).filter s.falls⟩ := by
  induction left generalizing done with
  | zero =>
    intro _
    refine ⟨done, .inr ⟨hbefore, rfl⟩, Nat.le_refl _, ?_⟩
    rw [run, Nat.sub_self]
    rfl
  | succ left ih =>
    intro hdone
    have hlikelihood : s.likelihood (s.probabilities (s.after done)) = s.likelihoodAt (done + 1) := rfl
    have hnext : s.improve (s.probabilities (s.after done)) (s.after done) = s.after (done + 1) := rfl
    have hfallen : (if Scalar.lt (s.likelihoodAt (done + 1)) (s.likelihoodAt done) then [done + 1]
        else []) = [done + 1].filter s.falls := by
      rw [List.filter_cons, List.filter_nil]
      rfl
    simp only [run, Option.any_some, hlikelihood, hnext, hfallen]
    split
    · rename_i hclose
      refine ⟨done + 1, .inl ⟨⟨by omega, by omega, hclose⟩, ?_⟩, by omega, ?_⟩
      · rintro k ⟨-, hk⟩
        by_contra hlt
        exact hbefore k (by omega) hk
      · rw [Nat.add_sub_cancel_left, List.range'_one]
    · rename_i hclose
      have hbefore' : ∀ k ≤ done + 1, ¬ s.Settles threshold k := by
        intro k hk hsettles
        rcases Nat.lt_or_eq_of_le hk with hlt | rfl
        · exact hbefore k (by omega) hsettles
        · exact hclose hsettles.2
      obtain ⟨last, hends, hle, hrun⟩ := ih hbefore' (by omega)
      refine ⟨last, by rwa [Nat.add_right_comm] at hends, by omega, ?_⟩
      obtain ⟨n, rfl⟩ : ∃ n, last = done + 1 + n := ⟨last - (done + 1), by omega⟩
      rw [hrun]
      have hrange : List.range' (done + 1) (done + 1 + n - done) =
          [done + 1] ++ List.range' (done + 1 + 1) (done + 1 + n - (done + 1)) := by
        rw [show done + 1 + n - done = n + 1 by omega, Nat.add_sub_cancel_left]
        rfl
      rw [hrange, List.filter_append]

theorem run_start (s : Scaling κ) (threshold : κ) (hmost : 1 ≤ most) :
    ∃ last, s.EndsAt threshold most last ∧
      s.run threshold most 0 none s.start = s.resultAfter last := by
  obtain ⟨left, rfl⟩ := Nat.exists_eq_add_of_le hmost
  have hbefore : ∀ k ≤ 1, ¬ s.Settles threshold k := fun k hk hsettles => by
    have htwo := hsettles.1
    omega
  obtain ⟨last, hends, -, hrun⟩ := run_from left hbefore (Nat.le_refl 1)
  refine ⟨last, hends, ?_⟩
  rw [Nat.add_comm 1 left, run]
  simp only [Option.any_none, Bool.false_eq_true, if_false, List.nil_append]
  exact hrun

end

theorem lt_distance_float (x y : Float) {t : Float} (h : sign? t.toModel.unpack ≠ some .positive) :
    Scalar.lt (distance x y) t = false := by
  rw [distance, Scalar.lt_float]
  cases hbelow : Scalar.lt (x - y) (Zero.zero : Float) with
  | true =>
    rw [if_pos rfl]
    exact lt_eq_false_of_signs (Scalar.sign?_zero_sub_float ((Scalar.lt_zero_float _).1 hbelow)) h
  | false =>
    rw [if_neg Bool.false_ne_true]
    refine lt_eq_false_of_signs (fun hnegative => ?_) h
    rw [(Scalar.lt_zero_float _).2 hnegative] at hbelow
    cases hbelow

theorem not_settles_float (s : Scaling Float) {threshold : Binary64}
    (h : Binary64.zero.lessThan threshold = false) (k : Nat) :
    ¬ s.Settles (Scalar.ofBinary64 threshold) k := by
  rintro ⟨-, hlt⟩
  have hfalse := lt_distance_float (s.likelihoodAt k) (s.likelihoodAt (k - 1))
    (Binary64.sign?_toFloat h)
  exact Bool.false_ne_true (hfalse.symm.trans hlt)

theorem solve_steps {κ : Type} [Scalar κ] {p : Plan} {x : EventIndex} {s : Scaling κ}
    {threshold : Binary64} (hthreshold : p.threshold = some threshold) (hsteps : 1 ≤ p.steps)
    (hs : ofIndex κ p x = .ok s) : ∃ last, s.EndsAt (Scalar.ofBinary64 threshold) p.steps last ∧
      solve κ p x = .ok (s, s.resultAfter last) := by
  obtain ⟨last, hends, hrun⟩ := run_start s (Scalar.ofBinary64 threshold) hsteps
  refine ⟨last, hends, ?_⟩
  rw [solve, hs, hthreshold, Option.getD_some, ← hrun]
  rfl

theorem Plan.ofParameters_eq_ok {ps : Parameters} {p : Plan} (h : Plan.ofParameters ps = .ok p) :
    Plan.replacement? ps = .ok p.replacement ∧ ∃ n, Plan.steps? ps = .ok n ∧
      p.threshold = (Number.ofJson? ps.threshold.json).map Number.toBinary64 := by
  rw [Plan.ofParameters, Except.bind_eq_ok_iff] at h
  obtain ⟨replacement, hr, hplan⟩ := h
  obtain ⟨n, hn, hplan⟩ := Except.bind_eq_ok_iff.1 hplan
  cases ht : Number.ofJson? ps.threshold.json with
  | none =>
    rw [ht] at hplan
    obtain rfl := Except.ok.inj hplan
    exact ⟨hr, n, hn, rfl⟩
  | some t =>
    rw [ht] at hplan
    obtain rfl := Except.ok.inj hplan
    exact ⟨hr, n, hn, rfl⟩

theorem Plan.ofParameters_iterations {ps : Parameters} {p : Plan} {threshold : Binary64}
    {iterations : Held Int} {steps : Nat} (h : Plan.ofParameters ps = .ok p)
    (hthreshold : p.threshold = some threshold)
    (hsteps : Plan.steps? { ps with iterations := iterations } = .ok steps) :
    Plan.ofParameters { ps with iterations := iterations } = .ok { p with steps := steps } := by
  obtain ⟨hreplacement, -, -, ht⟩ := Plan.ofParameters_eq_ok h
  rw [ht, Option.map_eq_some_iff] at hthreshold
  obtain ⟨t, hnumber, hvalue⟩ := hthreshold
  have hreplacement' : Plan.replacement? { ps with iterations := iterations } = .ok p.replacement :=
    hreplacement
  rw [Plan.ofParameters, hreplacement', hsteps]
  simp only [bind, Except.bind, pure, Except.pure, hnumber, ht, Option.map_some]

end Scaling

namespace Method

open Scaling

variable {ps : Parameters} {x : EventIndex} {p : Plan} {threshold : Binary64}

def trainedAfter (x : EventIndex) (s : Scaling Float) (last : Nat) :
    Except MethodError Trained × List Text :=
  (((model x s (s.resultAfter last)).mapError .model).map fun m =>
    ⟨m.map .ofFloat, (Scaling.report last (.ofFloat (s.likelihoodAt last))).map .string⟩,
    (s.divergences last).map warning)

theorem train_of_solve (runs : Nat) {s : Scaling Float} {last : Nat} (hcheck : x.check = .ok ())
    (hplan : Plan.ofParameters ps = .ok p) (hthreshold : p.threshold = some threshold)
    (hsolve : solve Float p x = .ok (s, s.resultAfter last)) :
    scaling.train runs ps x = trainedAfter x s last := by
  simp only [scaling, hcheck, hplan, trainFloat, hsolve, hthreshold, trainedAfter]
  cases model x s (s.resultAfter last) <;> rfl

theorem trainedAfter_of_model {s : Scaling Float} {last : Nat} {m : Model Float}
    (hm : model x s (s.resultAfter last) = .ok m) : trainedAfter x s last =
      (.ok ⟨m.map .ofFloat, (Scaling.report last (.ofFloat (s.likelihoodAt last))).map .string⟩,
        (s.divergences last).map warning) := by
  rw [trainedAfter, hm]
  rfl

/-- Training ends with the first step that begins with a likelihood so near to that of the step
before, or with as many steps as are allowed. It reports that step and its likelihood, and warns of
the steps that begin with a lower likelihood than the one before. When more steps are allowed, all
stays as it is if one had settled, and else the warnings go on. -/
theorem train_steps (runs : Nat) (hcheck : x.check = .ok ()) (hplan : Plan.ofParameters ps = .ok p)
    (hthreshold : p.threshold = some threshold) (hsteps : 1 ≤ p.steps) (htwo : 2 ≤ x.labels.length)
    (hlabels : x.labels.Nodup) :
    ∃ (s : Scaling Float) (last : Nat) (m : Model Float),
      ofIndex Float p x = .ok s ∧ s.EndsAt (Scalar.ofBinary64 threshold) p.steps last ∧
      model x s (s.resultAfter last) = .ok m ∧
      scaling.train runs ps x =
        (.ok ⟨m.map .ofFloat, (Scaling.report last (.ofFloat (s.likelihoodAt last))).map .string⟩,
          (s.divergences last).map warning) ∧
      (Binary64.zero.lessThan threshold = false → last = p.steps) ∧
      ∀ (iterations : Held Int) (more : Nat),
        Plan.steps? { ps with iterations := iterations } = .ok more → p.steps ≤ more →
          ((∃ k ≤ p.steps, s.Settles (Scalar.ofBinary64 threshold) k) →
            scaling.train runs { ps with iterations := iterations } x = scaling.train runs ps x) ∧
          (scaling.train runs ps x).2 <+:
            (scaling.train runs { ps with iterations := iterations } x).2 := by
  obtain ⟨s, hs⟩ : ∃ s, ofIndex Float p x = .ok s := by
    rw [ofIndex, EventIndex.examples, hcheck]
    exact ⟨_, rfl⟩
  obtain ⟨last, hends, hsolve⟩ := solve_steps hthreshold hsteps hs
  have htrain := train_of_solve runs hcheck hplan hthreshold hsolve
  obtain ⟨m, hm⟩ := exists_model_of_solve hsolve htwo hlabels
  refine ⟨s, last, m, hs, hends, hm, htrain.trans (trainedAfter_of_model hm), ?_, ?_⟩
  · intro hpositive
    rcases hends with ⟨⟨-, hsettles⟩, -⟩ | ⟨-, hlast⟩
    · exact absurd hsettles (not_settles_float s hpositive last)
    · exact hlast
  · intro iterations more hmore hle
    have hplan' := Plan.ofParameters_iterations hplan hthreshold hmore
    obtain ⟨later, hends', hsolve'⟩ := solve_steps (p := { p with steps := more }) hthreshold
      (hsteps.trans hle) hs
    rw [htrain, train_of_solve runs hcheck hplan' hthreshold hsolve']
    constructor
    · intro hsettles
      rw [hends'.unique (hends.of_settles hsettles hle)]
    · exact (prefix_divergences (hends.mono hends' hle)).map warning

def sharingRows : EventIndex where
  contexts := [[0, 1], [0], [1]]
  values := none
  outcomes := [0, 1, 1]
  counts := [1, 2, 1]
  predicates := ["x", "y"]
  occurrences := [3, 2]
  labels := ["A", "B"]

def threeSteps : Parameters := { iterations := .proper 3, threshold := .proper .zero }

theorem train_steps_sharingRows : sharingRows.check = .ok () ∧ ∃ (s : Scaling Float) (m : Model Float),
    ofIndex Float ⟨3, none, some .zero⟩ sharingRows = .ok s ∧
      model sharingRows s (s.resultAfter 3) = .ok m ∧
      scaling.train 0 threeSteps sharingRows =
        (.ok ⟨m.map .ofFloat, (Scaling.report 3 (.ofFloat (s.likelihoodAt 3))).map .string⟩,
          (s.divergences 3).map warning) ∧
      (s.divergences 3).map warning <+:
        (scaling.train 0 { threeSteps with iterations := .proper 5 } sharingRows).2 := by
  have hcheck : sharingRows.check = .ok () := by decide
  have hplan : Plan.ofParameters threeSteps = .ok ⟨3, none, some .zero⟩ := rfl
  obtain ⟨s, last, m, hs, -, hm, htrain, hlast, hmore⟩ :=
    train_steps 0 hcheck hplan rfl (by decide) (by decide) (by decide)
  obtain rfl : last = 3 := hlast (by decide)
  obtain ⟨-, hwarnings⟩ := hmore (.proper 5) 5 rfl (by decide)
  rw [htrain] at hwarnings
  exact ⟨hcheck, s, m, hs, hm, htrain, hwarnings⟩

end Method

end MaxEnt
