import Mathlib.Order.Basic
import MaxEnt.Proofs.Codec.Reading

namespace MaxEnt

/-- The error tells that the data are no well-formed model. The others come from the input's
encoding or compression, or from a number with too many digits for a message. -/
def ReadError.IsFormat : ReadError → Prop
  | .hugeCount | .undecodable | .damaged _ => False
  | _ => True

/-- An input with a record of what was asked of it: how many fields, and which were found. -/
structure Watched (σ : Type) where
  input : σ
  requests : Nat
  found : List Field

namespace Reader

variable {σ α β : Type}

def watch (read : Reading σ α) (f : α → Field) : Reading (Watched σ) α := fun s =>
  match read.run s.input with
  | (.ok x, t) => (.ok x, ⟨t, s.requests + 1, s.found ++ [f x]⟩)
  | (.error e, t) => (.error e, ⟨t, s.requests + 1, s.found⟩)

def watched (r : Reader σ) : Reader (Watched σ) :=
  ⟨watch r.utf .utf, watch r.int .int, watch r.double .double⟩

/-- What is known of a reading that begins at an input of some size: it found the fields `fs` in as
many requests, or in one more that failed, and each of them used up a part of the input. -/
def Ends (size : σ → Nat) (start : Nat) (P : α → List Field → Prop)
    (E : ReadError → List Field → Prop) (result : Except ReadError α) (t : σ) (requests : Nat)
    (fs : List Field) : Prop :=
  size t + fs.length ≤ start ∧
    match result with
    | .ok x => requests = fs.length ∧ P x fs
    | .error e => requests ≤ fs.length + 1 ∧ E e fs

variable (size : σ → Nat) (sound : σ → Prop)

/-- From every sound input, `watching` does what `read` does and keeps the record; `P` holds of what
is read and found, `E` of an error and what was found before it. -/
def Tracks (read : Reading σ α) (watching : Reading (Watched σ) α) (P : α → List Field → Prop)
    (E : ReadError → List Field → Prop) : Prop :=
  ∀ s, sound s.input → ∃ result t requests fs,
    watching.run s = (result, ⟨t, s.requests + requests, s.found ++ fs⟩) ∧
      read.run s.input = (result, t) ∧ sound t ∧ Ends size (size s.input) P E result t requests fs

def Spends (read : Reading σ α) : Prop :=
  ∀ s, sound s → sound (read.run s).2 ∧
    match read.run s with
    | (.ok _, t) => size t + 1 ≤ size s
    | (.error e, t) => size t ≤ size s ∧ e.IsFormat

def Keeps (read : Reading σ α) : Prop :=
  ∀ s, sound s → sound (read.run s).2 ∧
    match read.run s with
    | (.ok _, t) => size t ≤ size s
    | (.error e, t) => size t ≤ size s ∧ e.IsFormat

variable {size sound}

theorem keeps_pure (x : α) : Keeps size sound (pure x) := fun _ hs => ⟨hs, le_rfl⟩

theorem keeps_throw {e : ReadError} (he : e.IsFormat) :
    Keeps size sound (throw e : Reading σ α) := fun _ hs => ⟨hs, le_rfl, he⟩

theorem Keeps.bind {read : Reading σ α} {next : α → Reading σ β} (h : Keeps size sound read)
    (hnext : ∀ x, Keeps size sound (next x)) : Keeps size sound (read >>= next) := by
  intro s hs
  obtain ⟨ht, hread⟩ := h s hs
  rw [Reading.run_bind]
  rcases hrun : read.run s with ⟨e | x, t⟩ <;> rw [hrun] at ht hread
  · exact ⟨ht, hread⟩
  · obtain ⟨hu, hrest⟩ := hnext x t ht
    refine ⟨hu, ?_⟩
    simp only
    rcases hrun' : (next x).run t with ⟨e | y, u⟩ <;> rw [hrun'] at hrest
    · exact ⟨hrest.1.trans hread, hrest.2⟩
    · exact hrest.trans hread

theorem Spends.bind {read : Reading σ α} {next : α → Reading σ β} (h : Spends size sound read)
    (hnext : ∀ x, Keeps size sound (next x)) : Spends size sound (read >>= next) := by
  intro s hs
  obtain ⟨ht, hread⟩ := h s hs
  rw [Reading.run_bind]
  rcases hrun : read.run s with ⟨e | x, t⟩ <;> rw [hrun] at ht hread
  · exact ⟨ht, hread⟩
  · obtain ⟨hu, hrest⟩ := hnext x t ht
    refine ⟨hu, ?_⟩
    simp only
    rcases hrun' : (next x).run t with ⟨e | y, u⟩ <;> rw [hrun'] at hrest
    · exact ⟨hrest.1.trans (Nat.le_of_succ_le hread), hrest.2⟩
    · exact (Nat.succ_le_succ hrest).trans hread

theorem tracks_watch {read : Reading σ α} (h : Spends size sound read) (f : α → Field) :
    Tracks size sound read (watch read f) (fun x fs => fs = [f x]) fun e _ => e.IsFormat := by
  intro s hs
  obtain ⟨hsound, hread⟩ := h s.input hs
  rcases hrun : read.run s.input with ⟨e | x, t⟩
  · rw [hrun] at hsound hread
    refine ⟨.error e, t, 1, [], ?_, rfl, hsound, hread.1, by simp, hread.2⟩
    change watch read f s = _
    simp [watch, hrun]
  · rw [hrun] at hsound hread
    refine ⟨.ok x, t, 1, [f x], ?_, rfl, hsound, hread, rfl, rfl⟩
    change watch read f s = _
    simp [watch, hrun]

theorem tracks_pure {P : α → List Field → Prop} {E : ReadError → List Field → Prop} {x : α}
    (h : P x []) : Tracks size sound (pure x) (pure x) P E :=
  fun s hs => ⟨.ok x, s.input, 0, [], by simp [Reading.run_pure], rfl, hs, by simp [Ends, h]⟩

theorem tracks_throw {P : α → List Field → Prop} {E : ReadError → List Field → Prop} {e : ReadError}
    (h : E e []) : Tracks size sound (throw e) (throw e) P E :=
  fun s hs => ⟨.error e, s.input, 0, [], by simp [Reading.run_throw], rfl, hs, by simp [Ends, h]⟩

theorem Tracks.bind {read : Reading σ α} {watching : Reading (Watched σ) α}
    {next : α → Reading σ β} {watchingNext : α → Reading (Watched σ) β}
    {P : α → List Field → Prop} {Q : β → List Field → Prop} {E : ReadError → List Field → Prop}
    (h : Tracks size sound read watching P E)
    (hnext : ∀ x fs, P x fs → Tracks size sound (next x) (watchingNext x)
      (fun y gs => Q y (fs ++ gs)) fun e gs => E e (fs ++ gs)) :
    Tracks size sound (read >>= next) (watching >>= watchingNext) Q E := by
  intro s hs
  obtain ⟨result, t, requests, fs, hwatching, hread, ht, hsize, hends⟩ := h s hs
  cases result with
  | error e =>
    refine ⟨.error e, t, requests, fs, ?_, ?_, ht, hsize, hends⟩
    · rw [Reading.run_bind, hwatching]
    · rw [Reading.run_bind, hread]
  | ok x =>
    obtain ⟨result, u, more, gs, hwatching', hread', hu, hsize', hends'⟩ :=
      hnext x fs hends.2 ⟨t, s.requests + requests, s.found ++ fs⟩ ht
    refine ⟨result, u, requests + more, fs ++ gs, ?_, ?_, hu, ?_, ?_⟩
    · rw [Reading.run_bind_of_ok hwatching, hwatching', Nat.add_assoc, List.append_assoc]
    · rw [Reading.run_bind_of_ok hread, hread']
    · simp only [List.length_append] at hsize' ⊢
      omega
    · have hrequests := hends.1
      rw [List.length_append]
      cases result with
      | error e => exact ⟨by have hmore := hends'.1; omega, hends'.2⟩
      | ok y => exact ⟨by have hmore := hends'.1; omega, hends'.2⟩

theorem Tracks.imp {read : Reading σ α} {watching : Reading (Watched σ) α}
    {P Q : α → List Field → Prop} {E F : ReadError → List Field → Prop}
    (h : Tracks size sound read watching P E) (hP : ∀ x fs, P x fs → Q x fs)
    (hE : ∀ e fs, E e fs → F e fs) : Tracks size sound read watching Q F := by
  intro s hs
  obtain ⟨result, t, requests, fs, hwatching, hread, ht, hsize, hends⟩ := h s hs
  refine ⟨result, t, requests, fs, hwatching, hread, ht, hsize, ?_⟩
  cases result with
  | error e => exact ⟨hends.1, hE e fs hends.2⟩
  | ok x => exact ⟨hends.1, hP x fs hends.2⟩

theorem Tracks.or_error {read : Reading σ α} {watching : Reading (Watched σ) α}
    {P : α → List Field → Prop} (h : Tracks size sound read watching P fun e _ => e.IsFormat)
    (F : ReadError → List Field → Prop) :
    Tracks size sound read watching P fun e fs => e.IsFormat ∨ F e fs :=
  h.imp (fun _ _ hx => hx) fun _ _ he => Or.inl he

end Reader

end MaxEnt
