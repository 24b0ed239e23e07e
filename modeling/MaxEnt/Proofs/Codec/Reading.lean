import MaxEnt.Codec.Reader
import MaxEnt.Proofs.Model.Layout

namespace MaxEnt

namespace Reading

variable {σ α β : Type}

theorem run_bind (read : Reading σ α) (next : α → Reading σ β) (s : σ) :
    (read >>= next).run s =
      match read.run s with
      | (.ok x, t) => (next x).run t
      | (.error e, t) => (.error e, t) := by
  change (StateT.bind read.run (ExceptT.bindCont next)).run s = _
  simp only [StateT.run, StateT.bind]
  rcases h : read.run s with ⟨_ | x, t⟩ <;> rfl

theorem run_bind_of_ok {read : Reading σ α} {next : α → Reading σ β} {s t : σ} {x : α}
    (h : read.run s = (.ok x, t)) : (read >>= next).run s = (next x).run t := by
  rw [run_bind, h]

theorem run_pure (x : α) (s : σ) : (pure x : Reading σ α).run s = (.ok x, s) := rfl

theorem run_throw (e : ReadError) (s : σ) : (throw e : Reading σ α).run s = (.error e, s) := rfl

end Reading

namespace Reader

variable {σ : Type}

def Takes (r : Reader σ) (s : σ) : Field → σ → Prop
  | .utf value, t => r.utf.run s = (.ok value, t)
  | .int value, t => r.int.run s = (.ok value, t)
  | .double value, t => r.double.run s = (.ok value, t)

/-- The reader finds the fields, one behind the other, at the front of `s` and leaves `t`. -/
def TakesAll (r : Reader σ) (s : σ) : List Field → σ → Prop
  | [], t => s = t
  | f :: fs, t => ∃ u, r.Takes s f u ∧ TakesAll r u fs t

theorem takesAll_append {r : Reader σ} {s t : σ} (fs gs : List Field) :
    r.TakesAll s (fs ++ gs) t ↔ ∃ u, r.TakesAll s fs u ∧ r.TakesAll u gs t := by
  induction fs generalizing s with
  | nil => simp [TakesAll]
  | cons f fs ih =>
    simp only [List.cons_append, TakesAll, ih]
    constructor
    · rintro ⟨v, hv, u, hu, ht⟩
      exact ⟨u, ⟨v, hv, hu⟩, ht⟩
    · rintro ⟨u, ⟨v, hv, hu⟩, ht⟩
      exact ⟨v, hv, u, hu, ht⟩

theorem utf_run {r : Reader σ} {s t : σ} {value : Text} (h : r.Takes s (.utf value) t) :
    r.utf.run s = (.ok value, t) := h

theorem int_run {r : Reader σ} {s t : σ} {value : Int} (h : r.Takes s (.int value) t) :
    r.int.run s = (.ok value, t) := h

theorem double_run {r : Reader σ} {s t : σ} {value : Binary64} (h : r.Takes s (.double value) t) :
    r.double.run s = (.ok value, t) := h

theorem times_run {α β : Type} {r : Reader σ} {read : Reading σ β} {f : α → Field} {g : α → β}
    {xs : List α} (hf : ∀ x ∈ xs, ∀ s t, r.Takes s (f x) t → read.run s = (.ok (g x), t)) {s t : σ}
    (h : r.TakesAll s (xs.map f) t) : (read.times xs.length).run s = (.ok (xs.map g), t) := by
  induction xs generalizing s with
  | nil =>
    cases h
    rfl
  | cons x xs ih =>
    obtain ⟨u, hu, ht⟩ := h
    have hx := hf x (by simp) s u hu
    have hxs := ih (fun y hy => hf y (List.mem_cons_of_mem x hy)) ht
    rw [List.length_cons, Reading.times, Reading.run_bind_of_ok hx, Reading.run_bind_of_ok hxs]
    rfl

theorem count_run {r : Reader σ} {s t : σ} {n : Nat} (h : r.Takes s (.int n) t) :
    r.count.run s = (.ok n, t) := by
  have hn : ¬ (n : Int) < 0 := by omega
  rw [count, Reading.run_bind_of_ok (int_run h), if_neg hn, Int.toNat_natCast]
  rfl

theorem list_run {α β : Type} {r : Reader σ} {read : Reading σ β} {f : α → Field} {g : α → β}
    {xs : List α} (hf : ∀ x ∈ xs, ∀ s t, r.Takes s (f x) t → read.run s = (.ok (g x), t)) {s t : σ}
    (h : r.TakesAll s (.int xs.length :: xs.map f) t) :
    (r.list read).run s = (.ok (xs.map g), t) := by
  obtain ⟨u, hu, ht⟩ := h
  rw [list, Reading.run_bind_of_ok (count_run hu), times_run hf ht]

theorem groupPattern_run {r : Reader σ} {p : GroupPattern} {token : Text}
    (hp : GroupPattern.ofToken? token = some p) {s t : σ} (h : r.Takes s (.utf token) t) :
    r.groupPattern.run s = (.ok p, t) := by
  rw [groupPattern, Reading.run_bind_of_ok (utf_run h)]
  simp only [GroupPattern.ofToken, hp]
  rfl

theorem predicates_run {r : Reader σ} {ps : List (Text × Predicate Binary64)} {s t : σ}
    (h : r.TakesAll s (ps.flatMap fun p => p.2.params.map .double) t) :
    (r.predicates (ps.map fun p => (p.1, p.2.outcomes))).run s = (.ok ps, t) := by
  induction ps generalizing s with
  | nil =>
    cases h
    rfl
  | cons p ps ih =>
    rw [List.flatMap_cons, takesAll_append] at h
    obtain ⟨u, hu, ht⟩ := h
    have hlen : p.2.outcomes.length = p.2.params.length := by
      simp [Predicate.outcomes, Predicate.params]
    have hparams := times_run (g := id) (fun x _ s t hx => double_run hx) hu
    rw [List.map_id] at hparams
    rw [List.map_cons, predicates, hlen, Reading.run_bind_of_ok hparams,
      Reading.run_bind_of_ok (ih ht), p.2.zip_outcomes_params]
    rfl

/-- What is read behind the names: the parameters, of which a model is made. -/
def assemble (r : Reader σ) (labels : List Text) (patterns : List GroupPattern) (names : List Text) :
    Reading σ (Model Binary64) := do
  ExceptT.mk (pure (checkCovered (GroupPattern.covered patterns) names.length))
  let predicates ← r.predicates (names.zip (GroupPattern.spread patterns))
  match Model.ofTable labels (Table.ofList predicates) with
  | .ok m => pure m
  | .error e => throw (.invalidModel e)

def untagged (r : Reader σ) : Reading σ (Model Binary64) := do
  let _ ← r.int
  let _ ← r.double
  let labels ← r.list r.utf
  let patterns ← r.list r.groupPattern
  let names ← r.list r.utf
  r.assemble labels patterns names

theorem model_eq (r : Reader σ) :
    r.model = r.utf >>= fun tag => if tag ≠ Model.tag then throw (.otherTag tag) else r.untagged :=
  rfl

theorem checkCovered_self (count : Nat) : checkCovered count count = .ok () := by
  rw [checkCovered, if_pos rfl]

end Reader

end MaxEnt
