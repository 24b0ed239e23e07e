namespace MaxEnt.RunSort

/-- Where a search ends: between `low` and `high`, `p` having failed at `high` or `high` never having
been tried. From an even number of places the later of the two in the middle is tried, or the
earlier. -/
def place (p : Nat → Bool) (later : Bool) (low high : Nat) : Nat :=
  if low < high then
    let middle := low + (high - low - if later then 0 else 1) / 2
    if p middle then place p later (middle + 1) high else place p later low middle
  else high
termination_by high - low

/-- Doubles the stride while `p` holds there. Gives the last place where it held and the one that was
tried next, or the end. -/
def stride (p : Nat → Bool) (count : Nat) : (fuel held next : Nat) → Nat × Nat
  | 0, held, _ => (held, count)
  | fuel + 1, held, next =>
    if count ≤ next then (held, count)
    else if p next then stride p count fuel next (2 * next + 1)
    else (held, next)

variable {α : Type}

def gallop (p : α → Bool) (later : Bool) (xs : List α) : Nat :=
  let q (i : Nat) : Bool := xs[i]?.any p
  if q 0 then
    let (held, next) := stride q xs.length xs.length 0 1
    place q later (held + 1) next
  else 0

/-- Two runs that are merged from one end: the one that is not longer, the other one, and what was
taken, last first. Where either wins `patience` times in a row, it is searched how far it goes on. -/
structure Merge (α : Type) where
  short : List α
  long : List α
  taken : List α
  patience : Nat

namespace Merge

def takeShort (m : Merge α) (count : Nat) : Merge α :=
  { m with short := m.short.drop count, taken := (m.short.take count).reverse ++ m.taken }

def takeLong (m : Merge α) (count : Nat) : Merge α :=
  { m with long := m.long.drop count, taken := (m.long.take count).reverse ++ m.taken }

/-- Merging ends as an exception: when the long run is used up, or the short one but for its last
element. -/
def check (m : Merge α) : Except (Merge α) (Merge α) :=
  if m.long.isEmpty || m.short.length ≤ 1 then .error m else .ok m

def result (m : Merge α) : List α :=
  match m.short with
  | [x] => m.taken.reverse ++ (m.long ++ [x])
  | xs => m.taken.reverse ++ (xs ++ m.long)

def worth : Nat := 7

variable (wins : α → α → Bool)

/-- Takes the first element that wins, until one run has won often enough. The runs have won `shorts`
and `longs` times in a row; an element of the long run is given to `wins` before one of the short
run. -/
def alternate : (fuel shorts longs : Nat) → Merge α → Except (Merge α) (Merge α)
  | 0, _, _, m => .error m
  | fuel + 1, shorts, longs, m =>
    match m.short, m.long with
    | x :: _, y :: _ =>
      if wins y x then do
        let m ← (m.takeLong 1).check
        if m.patience ≤ longs + 1 then return m else alternate fuel 0 (longs + 1) m
      else do
        let m ← (m.takeShort 1).check
        if m.patience ≤ shorts + 1 then return m else alternate fuel (shorts + 1) 0 m
    | _, _ => .error m

/-- Takes all that comes before the next element of the long run, and then that element. -/
def gallopShort (later : Bool) (m : Merge α) : Except (Merge α) (Merge α × Nat) := do
  let count := match m.long with
    | [] => 0
    | y :: _ => gallop (fun x => !wins y x) later m.short
  let m ← if count = 0 then pure m else (m.takeShort count).check
  return (← (m.takeLong 1).check, count)

def gallopLong (later : Bool) (m : Merge α) : Except (Merge α) (Merge α × Nat) := do
  let count := match m.short with
    | [] => 0
    | x :: _ => gallop (fun y => wins y x) later m.long
  let m ← if count = 0 then pure m else (m.takeLong count).check
  return (← (m.takeShort 1).check, count)

/-- Gallops through both runs, beginning with the one that comes first in the order, as long as that
is worth it. Each round makes galloping more likely, its end makes it less likely. -/
def gallopBoth (forward : Bool) : (fuel : Nat) → Merge α → Except (Merge α) (Merge α)
  | 0, m => .error m
  | fuel + 1, m => do
    let m := { m with patience := max 1 (m.patience - 1) }
    let (m, first) ← if forward then gallopShort wins forward m else gallopLong wins forward m
    let (m, second) ← if forward then gallopLong wins forward m else gallopShort wins forward m
    if worth ≤ first || worth ≤ second then gallopBoth forward fuel m
    else return { m with patience := m.patience + 1 }

def rounds (forward : Bool) : (fuel : Nat) → Merge α → Except (Merge α) (Merge α)
  | 0, m => .error m
  | fuel + 1, m => do
    let m ← alternate wins fuel 0 0 m
    let m ← gallopBoth wins forward fuel { m with patience := m.patience + 1 }
    rounds forward fuel m

def run (forward : Bool) (m : Merge α) : Merge α :=
  match (m.takeLong 1).check >>= rounds wins forward (m.short.length + m.long.length) with
  | .error m => m
  | .ok m => m

end Merge

variable (precedes : α → α → Bool)

/-- Merges two runs, and gives the patience that is left. What stands right already is left alone;
the shorter rest is put aside, and the longer one merged with it from its free end. -/
def merge (xs ys : List α) (patience : Nat) : List α × Nat :=
  let before := match ys with
    | [] => xs.length
    | y :: _ => gallop (fun x => !precedes y x) true xs
  let (first, xs) := xs.splitAt before
  let after := match xs.getLast? with
    | none => ys.length
    | some x => gallop (fun y => !precedes y x) false ys.reverse
  let (ys, last) := ys.splitAt (ys.length - after)
  if xs.isEmpty || ys.isEmpty then (first ++ (xs ++ (ys ++ last)), patience)
  else if xs.length ≤ ys.length then
    let m := Merge.run precedes true ⟨xs, ys, [], patience⟩
    (first ++ (m.result ++ last), m.patience)
  else
    let m := Merge.run (fun x y => precedes y x) false ⟨ys.reverse, xs.reverse, [], patience⟩
    (first ++ (m.result.reverse ++ last), m.patience)

end MaxEnt.RunSort
