import MaxEnt.RunSort.Merge

namespace MaxEnt.RunSort

variable {α : Type} (precedes : α → α → Bool)

/-- Goes on with a run whose elements do not decrease, `done` last first. Gives the run and the
rest. -/
def ascend (last : α) (done : List α) : List α → List α × List α
  | [] => (done.reverse, [])
  | x :: xs =>
    if precedes x last then (done.reverse, x :: xs) else ascend x (x :: done) xs

def descend (last : α) (done : List α) : List α → List α × List α
  | [] => (done, [])
  | x :: xs => if precedes x last then descend x (x :: done) xs else (done, x :: xs)

def takeRun : List α → List α × List α
  | [] => ([], [])
  | [x] => ([x], [])
  | x :: y :: xs =>
    if precedes y x then descend precedes y [y, x] xs else ascend precedes y [y, x] xs

/-- Puts an element behind all that it does not precede, as far as halving tells. -/
def insert (run : List α) (x : α) : List α :=
  let i := place (fun i => run[i]?.any (!precedes x ·)) true 0 run.length
  run.take i ++ x :: run.drop i

/-- The least length of runs for a number of elements: its first six bits, rounded up. -/
def leastRun (count : Nat) : Nat :=
  let drop := count.log2 - 5
  (count + Nat.pow 2 drop - 1) / Nat.pow 2 drop

/-- A run with the place where it starts, and, once it is known, the power of the border to the next
run: the lower, the later they should be merged. -/
structure Run (α : Type) where
  start : Nat
  items : List α
  power : Nat

/-- The first binary place in which the middles of two runs differ, as parts of a whole of which they
are `a` and `b` halves; `fuel` bounds the number of places. -/
def powerWithin (count : Nat) : (fuel a b place : Nat) → Nat
  | 0, _, _, place => place
  | fuel + 1, a, b, place =>
    if count ≤ a then powerWithin count fuel (2 * (a - count)) (2 * (b - count)) (place + 1)
    else if count ≤ b then place
    else powerWithin count fuel (2 * a) (2 * b) (place + 1)

def power (count : Nat) (r : Run α) (next : Nat) : Nat :=
  let a := 2 * r.start + r.items.length
  powerWithin count (count.log2 + 3) a (a + r.items.length + next) 1

def join (r s : Run α) (patience : Nat) : Run α × Nat :=
  let (items, patience) := merge precedes r.items s.items patience
  ({ r with items }, patience)

/-- Merges the last runs (last first) while the border between them has a higher power. -/
def settle (p : Nat) : List (Run α) → Nat → List (Run α) × Nat
  | s :: r :: rs, patience =>
    if p < r.power then
      let (t, patience) := join precedes r s patience
      settle p (t :: rs) patience
    else ({ s with power := p } :: r :: rs, patience)
  | [s], patience => ([{ s with power := p }], patience)
  | [], patience => ([], patience)
termination_by rs => rs.length

def push (count : Nat) (rs : List (Run α)) (items : List α) (patience : Nat) :
    List (Run α) × Nat :=
  let start := match rs with
    | [] => 0
    | r :: _ => r.start + r.items.length
  let (rs, patience) := match rs with
    | [] => ([], patience)
    | r :: rs => settle precedes (power count r items.length) (r :: rs) patience
  (⟨start, items, 0⟩ :: rs, patience)

/-- Cuts the elements into runs, makes short ones longer, and merges on the way; `fuel` bounds the
number of runs. -/
def collect (count : Nat) : (fuel : Nat) → List α → List (Run α) → Nat → List (Run α) × Nat
  | 0, _, rs, patience => (rs, patience)
  | fuel + 1, xs, rs, patience =>
    if xs.isEmpty then (rs, patience)
    else
      let (run, rest) := takeRun precedes xs
      let more := leastRun count - run.length
      let run := (rest.take more).foldl (insert precedes) run
      let (rs, patience) := push precedes count rs run patience
      collect count fuel (rest.drop more) rs patience

/-- Merges all runs (last first): two of the last three that are neighbours, the shorter outer one
with the middle one. -/
def finish : List (Run α) → Nat → List α
  | t :: s :: r :: rs, patience =>
    if r.items.length < t.items.length then
      let (u, patience) := join precedes r s patience
      finish (t :: u :: rs) patience
    else
      let (u, patience) := join precedes s t patience
      finish (u :: r :: rs) patience
  | [s, r], patience => (join precedes r s patience).1.items
  | [r], _ => r.items
  | [], _ => []
termination_by rs => rs.length

/-- Sorts by merging runs. Where `precedes` is a strict weak order this is the stable sort; else
what comes out hangs on which elements are compared, and these are fixed here. -/
def sort (xs : List α) : List α :=
  let (rs, patience) := collect precedes xs.length xs.length xs [] Merge.worth
  finish precedes rs patience

end MaxEnt.RunSort
