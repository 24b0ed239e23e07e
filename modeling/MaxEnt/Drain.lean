namespace MaxEnt

/-- What an iteration gave, and the failure that ended it, if one did. -/
structure Drain (ε α : Type) where
  items : List α
  failure : Option ε
  deriving DecidableEq

namespace Drain

variable {ε δ α β : Type}

def ofList (items : List α) : Drain ε α := ⟨items, none⟩

def map (f : α → β) (d : Drain ε α) : Drain ε β := ⟨d.items.map f, d.failure⟩

def mapFailure (f : ε → δ) (d : Drain ε α) : Drain δ α := ⟨d.items, d.failure.map f⟩

def ofResults : List (Except ε α) → Drain ε α
  | [] => ⟨[], none⟩
  | .error e :: _ => ⟨[], some e⟩
  | .ok x :: rs => let d := ofResults rs; ⟨x :: d.items, d.failure⟩

def andThen (d : Drain ε α) (f : α → Except ε β) : Drain ε β :=
  let r := ofResults (d.items.map f)
  ⟨r.items, r.failure <|> d.failure⟩

end Drain

end MaxEnt
