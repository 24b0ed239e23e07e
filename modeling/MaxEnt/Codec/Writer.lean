import MaxEnt.Codec.Field

namespace MaxEnt

structure Writer (σ ε : Type) where
  put : Field → σ → Except ε σ
  close : σ → σ

namespace Writer

variable {σ ε : Type}

def putAll (w : Writer σ ε) : List Field → σ → σ × Option ε
  | [], s => (s, none)
  | f :: fs, s =>
    match w.put f s with
    | .ok s => putAll w fs s
    | .error e => (s, some e)

/-- Writes a model. Even if that fails the output is closed. -/
def persist (w : Writer σ ε) (m : Model Binary64) (s : σ) : σ × Option ε :=
  let (s, e) := w.putAll m.fields s
  (w.close s, e)

end Writer

/-- What was written to an output, the last part first, and whether more can be. -/
structure Output (β : Type) where
  parts : List (List β)
  isOpen : Bool

namespace Output

variable {β ε : Type}

def empty : Output β := ⟨[], true⟩

def written (o : Output β) : List β := o.parts.reverse.flatten

/-- Writes the encodings of fields. The output is closed in the end, or only flushed if it belongs
to the caller. -/
def writer (encode : Field → Except ε (List β)) (owned : Bool) : Writer (Output β) ε where
  put f o := (encode f).map fun part => { o with parts := part :: o.parts }
  close o := if owned then { o with isOpen := false } else o

end Output

end MaxEnt
