import Mathlib
import MaxEnt.Proofs.Codec.RoundTrip
import MaxEnt.Proofs.Model.Order

namespace MaxEnt

namespace Reader

variable {σ α β : Type} {read : Reading σ α} {P : α → Prop} {Q : β → Prop}

def Yields (read : Reading σ α) (P : α → Prop) : Prop :=
  ∀ s t x, read.run s = (.ok x, t) → P x

theorem Yields.bind {next : α → Reading σ β} (h : Yields read P)
    (hnext : ∀ x, P x → Yields (next x) Q) : Yields (read >>= next) Q := by
  intro s u y hy
  rw [Reading.run_bind] at hy
  rcases hread : read.run s with ⟨e | x, t⟩
  · rw [hread] at hy
    cases hy
  · rw [hread] at hy
    exact hnext x (h s t x hread) t u y hy

theorem yields_pure {x : α} (h : P x) : Yields (pure x : Reading σ α) P := by
  intro s t y hy
  rw [Reading.run_pure] at hy
  cases hy
  exact h

theorem yields_throw (e : ReadError) : Yields (throw e : Reading σ α) P := by
  intro s t y hy
  rw [Reading.run_throw] at hy
  cases hy

theorem yields_any (read : Reading σ α) : Yields read fun _ => True := fun _ _ _ _ => trivial

theorem Yields.times (h : Yields read P) (count : Nat) :
    Yields (read.times count) fun xs => ∀ x ∈ xs, P x := by
  induction count with
  | zero => exact yields_pure (by simp)
  | succ count ih =>
    exact h.bind fun x hx => ih.bind fun xs hxs => yields_pure (List.forall_mem_cons.2 ⟨hx, hxs⟩)

theorem Yields.list (h : Yields read P) (r : Reader σ) :
    Yields (r.list read) fun xs => ∀ x ∈ xs, P x :=
  (yields_any r.count).bind fun count _ => h.times count

variable {r : Reader σ}

theorem yields_predicates (shapes : List (Text × List Int)) :
    Yields (r.predicates shapes) fun ps => ps.map Prod.fst = shapes.map Prod.fst := by
  induction shapes with
  | nil => exact yields_pure rfl
  | cons shape shapes ih =>
    refine (yields_any _).bind fun params _ => ih.bind fun ps hps => yields_pure ?_
    rw [List.map_cons, List.map_cons, hps]

theorem yields_assemble {labels names : List Text} (patterns : List GroupPattern) :
    Yields (r.assemble labels patterns names) fun m =>
      m.labels = labels ∧ ∀ name ∈ m.predicates.keys, name ∈ names := by
  refine (yields_any _).bind fun _ _ => (yields_predicates _).bind fun ps hps => ?_
  cases hm : Model.ofTable labels (Table.ofList ps) with
  | error e => exact yields_throw _
  | ok m =>
    obtain ⟨hlabels, hpredicates⟩ := Model.ofTable_ok hm
    refine yields_pure ⟨hlabels, fun name hname => ?_⟩
    rw [hpredicates, ← Table.isSome_get?_iff, Table.isSome_get?_ofList, hps] at hname
    obtain ⟨shape, hshape, rfl⟩ := List.mem_map.1 hname
    exact (List.of_mem_zip hshape).1

theorem Yields.model {P : Text → Prop} (h : Yields r.utf P) :
    Yields r.model fun m => (∀ label ∈ m.labels, P label) ∧ ∀ name ∈ m.predicates.keys, P name := by
  rw [model_eq]
  refine (yields_any r.utf).bind fun tag _ => ?_
  split
  · exact yields_throw _
  · refine (yields_any r.int).bind fun _ _ => (yields_any r.double).bind fun _ _ =>
      (h.list r).bind fun labels hlabels => (yields_any _).bind fun patterns _ =>
      (h.list r).bind fun names hnames => ?_
    intro s t m hm
    obtain ⟨hl, hn⟩ := yields_assemble patterns s t m hm
    exact ⟨hl ▸ hlabels, fun name hname => hnames name (hn name hname)⟩

end Reader

namespace Binary

open Reader

theorem yields_utf : Yields utf ModifiedUtf8.Unpaired := by
  refine (yields_any _).bind fun length _ => (yields_any _).bind fun bytes _ => ?_
  cases hdecode : ModifiedUtf8.decode bytes with
  | error place => exact yields_throw _
  | ok value => exact yields_pure (ModifiedUtf8.unpaired_of_decode hdecode)

/-- What is written of a model does not depend on the order of its predicates, whatever the writer.
And whatever the bytes from which a model was read, those that are written of it, if it can be
written, are read as the same model, of which the same bytes are written again. -/
theorem persist_canonical :
    (∀ m n : Model Binary64, m.labels = n.labels →
      (∀ name, m.predicates.get? name = n.predicates.get? name) →
        m.fields = n.fields ∧
          ∀ {σ ε : Type} (w : Writer σ ε) (s : σ), w.persist m s = w.persist n s) ∧
      ∀ (bytes rest : List UInt8) (m : Model Binary64) (owned : Bool) (o : Output UInt8),
        reader.model.run bytes = (.ok m, rest) →
          (Output.writer encode owned).persist m .empty = (o, none) →
            ∃ n, reader.model.run o.written = (.ok n, []) ∧ n.labels = m.labels ∧
              (∀ name, n.predicates.get? name = m.predicates.get? name) ∧
              (Output.writer encode owned).persist n .empty = (o, none) := by
  have hsame : ∀ m n : Model Binary64, m.labels = n.labels →
      (∀ name, m.predicates.get? name = n.predicates.get? name) → m.fields = n.fields :=
    fun m n hlabels hget => Model.fields_eq_of_perm hlabels (Table.perm_of_get?_eq hget)
  have hpersist : ∀ {σ ε : Type} (w : Writer σ ε) (s : σ) {m n : Model Binary64},
      m.fields = n.fields → w.persist m s = w.persist n s := by
    intro σ ε w s m n h
    rw [Writer.persist, Writer.persist, h]
  constructor
  · intro m n hlabels hget
    have hfields := hsame m n hlabels hget
    exact ⟨hfields, fun w s => hpersist w s hfields⟩
  intro bytes rest m owned o hread hwrite
  obtain ⟨hfits, hwritten⟩ := written_of_persist hwrite
  have hunpaired : m.Unpaired := yields_utf.model bytes rest m hread
  obtain ⟨n, hn, hlabels, hget⟩ := hfits.run_bytes hunpaired []
  rw [List.append_nil, ← hwritten] at hn
  refine ⟨n, hn, hlabels, hget, ?_⟩
  rw [hpersist _ _ (hsame n m hlabels hget), hwrite]

/-- A model with an overlong letter, two groups of one pattern, a token that no writer makes, names
out of order and a byte behind it. -/
def looseBytes : List UInt8 :=
  [0, 3, 71, 73, 83, 0, 0, 0, 7, 0, 0, 0, 0, 0, 0, 0, 0,
    0, 0, 0, 2, 0, 1, 98, 0, 2, 0xC1, 0xA1,
    0, 0, 0, 2, 0, 3, 49, 32, 48, 0, 5, 48, 49, 32, 43, 48,
    0, 0, 0, 2, 0, 1, 113, 0, 1, 112,
    63, 240, 0, 0, 0, 0, 0, 0, 191, 240, 0, 0, 0, 0, 0, 0, 9]

def looseModel : Model Binary64 where
  labels := ["b", "a"]
  predicates := .ofList [("q", ⟨[(0, .one)]⟩), ("p", ⟨[(0, ⟨0xBFF0000000000000⟩)]⟩)]
  two_le := by decide
  labels_nodup := by decide
  inRange := by decide

def tidyModel : Model Binary64 where
  labels := ["b", "a"]
  predicates := .ofList [("p", ⟨[(0, ⟨0xBFF0000000000000⟩)]⟩), ("q", ⟨[(0, .one)]⟩)]
  two_le := by decide
  labels_nodup := by decide
  inRange := by decide

theorem tokens_looseModel : looseModel.groups.map PredicateGroup.token = [↑ "2 0"] := by
  cbv

theorem fitsBinary_looseModel : looseModel.FitsBinary :=
  .of_tokens tokens_looseModel (by decide) (by decide) (by decide) (by decide)

theorem persist_canonical_looseModel :
    (∀ name, looseModel.predicates.get? name = tidyModel.predicates.get? name) ∧
      looseModel.fields = tidyModel.fields ∧
      reader.model.run looseBytes = (.ok looseModel, [9]) ∧
      ∃ o, (Output.writer encode false).persist looseModel .empty = (o, none) ∧
        ∃ n, reader.model.run o.written = (.ok n, []) ∧ n.labels = looseModel.labels ∧
          (∀ name, n.predicates.get? name = looseModel.predicates.get? name) ∧
          (Output.writer encode false).persist n .empty = (o, none) := by
  have hperm : looseModel.predicates.entries.Perm tidyModel.predicates.entries :=
    List.Perm.swap _ _ []
  have hget := Table.get?_eq_of_perm hperm
  have hread : reader.model.run looseBytes = (.ok looseModel, [9]) := by cbv
  obtain ⟨o, ho, -⟩ :=
    Output.persist_of_ok fun f hf => encode_of_fits (fitsBinary_looseModel.fields f hf)
  obtain ⟨hsame, hagain⟩ := persist_canonical
  exact ⟨hget, (hsame looseModel tidyModel rfl hget).1, hread, o, ho,
    hagain looseBytes [9] looseModel false o hread ho⟩

end Binary

end MaxEnt
