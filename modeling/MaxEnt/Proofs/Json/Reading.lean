import MaxEnt.Proofs.Json.Scalar
import MaxEnt.Proofs.Table

namespace MaxEnt.Json

def Blanks (t : Text) : Prop := ∀ c ∈ t, isBlank c = true

def Begins (closing : CodePoint) (t : Text) : Prop :=
  ∃ c u, t = c :: u ∧ isBlank c = false ∧ c ≠ closing

namespace Begins

variable {closing : CodePoint} {t b : Text}

theorem skipBlanks (h : Begins closing t) (hb : Blanks b) : Json.skipBlanks (b ++ t) = t := by
  obtain ⟨c, u, rfl, hc, -⟩ := h
  refine Text.dropWhile_append hb fun d hd => ?_
  cases hd
  exact hc

theorem head?_ne (h : Begins closing t) : t.head? ≠ some closing := by
  obtain ⟨c, u, rfl, -, hc⟩ := h
  simpa using hc

theorem append (h : Begins closing t) (u : Text) : Begins closing (t ++ u) := by
  obtain ⟨c, v, rfl, hc⟩ := h
  exact ⟨c, v ++ u, rfl, hc⟩

theorem intercalate (h : Begins closing t) (separator : Text) (ts : List Text) :
    Begins closing (List.intercalate separator (t :: ts)) := by
  cases ts with
  | nil => rwa [List.intercalate_singleton]
  | cons u us =>
    rw [List.intercalate_cons_cons, List.append_assoc]
    exact h.append _

end Begins

theorem skipBlanks_close {b : Text} (hb : Blanks b) {c : CodePoint} (hc : isBlank c = false)
    (t : Text) : skipBlanks (b ++ c :: t) = c :: t := by
  refine Text.dropWhile_append hb fun d hd => ?_
  cases hd
  exact hc

theorem ends_close {b : Text} (hb : Blanks b) {c : CodePoint} (hc : c = ↑ ']' ∨ c = ↑ '}')
    (t : Text) : Ends (b ++ c :: t) := by
  cases b with
  | nil => exact .cons (.inr (.inr hc)) t
  | cons d u => exact .cons (.inl (hb d (by simp))) _

/-- The text is read as the value, in which arrays and objects stand at most `depth` deep, before
whatever ends it. Each step spends fuel, of which there is enough where there is one for every code
point. -/
structure Reads (depth : Nat) (v : Json) (t : Text) : Prop where
  begins : Begins ↑ ']' t
  value : ∀ fuel rest, t.length ≤ fuel → Ends rest →
    parseValue fuel depth (t ++ rest) = .ok (v, rest)

theorem Reads.of_scalar {depth : Nat} {v : Json} {t u : Text} {c : CodePoint}
    (hc : isBlank c = false ∧ c ≠ ↑ ']' ∧ c ≠ ↑ '[' ∧ c ≠ ↑ '{') (ht : t = c :: u)
    (h : ∀ rest, Ends rest → parseScalar (t ++ rest) = .ok (v, rest)) : Reads depth v t where
  begins := ⟨c, u, ht, hc.1, hc.2.1⟩
  value fuel rest hfuel hrest := by
    subst ht
    obtain ⟨spent, rfl⟩ : ∃ spent, fuel = spent + 1 :=
      Nat.exists_eq_succ_of_ne_zero (by rw [List.length_cons] at hfuel; omega)
    have hscalar := h rest hrest
    rw [List.cons_append] at hscalar ⊢
    rw [parseValue]
    simp only [if_neg hc.2.2.1, if_neg hc.2.2.2, hscalar]

def ReadsField (depth : Nat) (field : Text × Json) (t : Text) : Prop :=
  ∃ u, t = Text.concat [stringText field.1, ": ", u] ∧ ModifiedUtf8.Unpaired field.1 ∧
    Reads depth field.2 u

theorem ReadsField.begins {depth : Nat} {field : Text × Json} {t : Text}
    (h : ReadsField depth field t) : Begins ↑ '}' t := by
  obtain ⟨u, rfl, -, -⟩ := h
  exact ⟨↑ '"', _, rfl, by decide, by decide⟩

section Parts

variable {depth fuel : Nat} {t between last : Text}

theorem parseItems_comma {v : Json} (h : Reads depth v t) (hfuel : t.length ≤ fuel)
    (done : List Json) (rest : Text) :
    parseItems (fuel + 1) depth done (t ++ ↑ ',' :: rest) =
      parseItems fuel depth (v :: done) (skipBlanks rest) := by
  have hskip : skipBlanks (↑ ',' :: rest) = ↑ ',' :: rest := rfl
  rw [parseItems, h.value fuel _ hfuel (.cons (by decide) rest)]
  simp only [hskip, if_true]

theorem parseItems_close {v : Json} (h : Reads depth v t) (hfuel : t.length ≤ fuel)
    (hlast : Blanks last) (done : List Json) (rest : Text) :
    parseItems (fuel + 1) depth done (t ++ (last ++ ↑ ']' :: rest)) =
      .ok (array (v :: done).reverse, rest) := by
  have hcomma : ¬ (↑ ']' : CodePoint) = ↑ ',' := by decide
  rw [parseItems, h.value fuel _ hfuel (ends_close hlast (.inl rfl) rest)]
  simp only [skipBlanks_close hlast (c := ↑ ']') (by decide), if_neg hcomma, if_true]

/-- Items are read to the closing mark. The induction is on the items that are left. -/
theorem parseItems_intercalate {vs : List Json} {ts : List Text}
    (h : List.Forall₂ (Reads depth) vs ts) (hne : ts ≠ []) (hbetween : Blanks between)
    (hlast : Blanks last) (hfuel : (List.intercalate (↑ ',' :: between) ts).length < fuel)
    (done : List Json) (rest : Text) :
    parseItems fuel depth done (List.intercalate (↑ ',' :: between) ts ++ (last ++ ↑ ']' :: rest)) =
      .ok (array (done.reverse ++ vs), rest) := by
  induction h generalizing fuel done with
  | nil => exact absurd rfl hne
  | @cons v t vs ts hv hvs ih =>
    obtain ⟨spent, rfl⟩ : ∃ spent, fuel = spent + 1 := Nat.exists_eq_succ_of_ne_zero (by omega)
    cases hvs with
    | nil =>
      rw [List.intercalate_singleton] at hfuel ⊢
      rw [parseItems_close hv (by omega) hlast, List.reverse_cons]
    | @cons w u ws us hw hws =>
      have hbegins := hw.begins.intercalate (↑ ',' :: between) us
      rw [List.intercalate_cons_cons] at hfuel ⊢
      simp only [List.length_append, List.length_cons] at hfuel
      rw [List.append_assoc, List.append_assoc, List.cons_append, parseItems_comma hv (by omega),
        (hbegins.append _).skipBlanks hbetween, ih (by simp) (by omega), List.reverse_cons,
        List.append_assoc, List.singleton_append]

theorem parseKey_field {key u : Text} (hkey : ModifiedUtf8.Unpaired key) (hu : Begins ↑ ']' u)
    (rest : Text) :
    parseKey (Text.concat [stringText key, ": ", u] ++ rest) = some (key, u ++ rest) := by
  have hfield : Text.concat [stringText key, ": ", u] ++ rest =
      ↑ '"' :: (key.flatMap escape ++ ↑ '"' :: ↑ ':' :: ↑ ' ' :: (u ++ rest)) := by
    simp [Text.concat, stringText_eq]
    rfl
  have hcolon : skip? ":" (skipBlanks (↑ ':' :: ↑ ' ' :: (u ++ rest))) =
      some (↑ ' ' :: (u ++ rest)) := rfl
  have hblank : Blanks [↑ ' '] := by simp [Blanks, isBlank]
  have hskip : skipBlanks (↑ ' ' :: (u ++ rest)) = u ++ rest := (hu.append rest).skipBlanks hblank
  rw [hfield, parseKey, if_pos rfl, parseString_stringText hkey]
  simp only [hcolon, Option.map_some, hskip]

section Field

variable {f : Text × Json} {done : List (Text × Json)}

theorem length_field_value_le (key u : Text) :
    u.length ≤ (Text.concat [stringText key, ": ", u]).length := by
  simp only [Text.concat, List.flatten_cons, List.flatten_nil, List.length_append]
  omega

theorem parseFields_comma (h : ReadsField depth f t) (hnew : f.1 ∉ done.map Prod.fst)
    (hfuel : t.length ≤ fuel) (rest : Text) :
    parseFields (fuel + 1) depth done (t ++ ↑ ',' :: rest) =
      parseFields fuel depth (done ++ [f]) (skipBlanks rest) := by
  obtain ⟨u, rfl, hkey, hu⟩ := h
  have hlength := length_field_value_le f.1 u
  have hvalue := hu.value fuel (↑ ',' :: rest) (by omega) (.cons (by decide) rest)
  have hskip : skipBlanks (↑ ',' :: rest) = ↑ ',' :: rest := rfl
  rw [parseFields, parseKey_field hkey hu.begins]
  simp only [hvalue, Table.insertEntry_of_not_mem hnew f.2, hskip, if_true]

theorem parseFields_close (h : ReadsField depth f t) (hnew : f.1 ∉ done.map Prod.fst)
    (hfuel : t.length ≤ fuel) (hlast : Blanks last) (rest : Text) :
    parseFields (fuel + 1) depth done (t ++ (last ++ ↑ '}' :: rest)) =
      .ok (object (done ++ [f]), rest) := by
  obtain ⟨u, rfl, hkey, hu⟩ := h
  have hlength := length_field_value_le f.1 u
  have hvalue := hu.value fuel _ (by omega) (ends_close hlast (.inr rfl) rest)
  have hskip := skipBlanks_close hlast (c := ↑ '}') (by decide) rest
  have hcomma : ¬ (↑ '}' : CodePoint) = ↑ ',' := by decide
  rw [parseFields, parseKey_field hkey hu.begins]
  simp only [hvalue, Table.insertEntry_of_not_mem hnew f.2, hskip, if_neg hcomma, if_true]

end Field

theorem parseFields_intercalate {fs : List (Text × Json)} {ts : List Text}
    (h : List.Forall₂ (ReadsField depth) fs ts) (hne : ts ≠ []) (hbetween : Blanks between)
    (hlast : Blanks last) (hfuel : (List.intercalate (↑ ',' :: between) ts).length < fuel)
    (done : List (Text × Json)) (hkeys : ((done ++ fs).map Prod.fst).Nodup) (rest : Text) :
    parseFields fuel depth done (List.intercalate (↑ ',' :: between) ts ++ (last ++ ↑ '}' :: rest)) =
      .ok (object (done ++ fs), rest) := by
  induction h generalizing fuel done with
  | nil => exact absurd rfl hne
  | @cons f t fs ts hf hfs ih =>
    obtain ⟨spent, rfl⟩ : ∃ spent, fuel = spent + 1 := Nat.exists_eq_succ_of_ne_zero (by omega)
    have hnew : f.1 ∉ done.map Prod.fst := by
      rw [List.map_append] at hkeys
      exact fun hm => List.disjoint_of_nodup_append hkeys hm (by simp)
    cases hfs with
    | nil =>
      rw [List.intercalate_singleton] at hfuel ⊢
      rw [parseFields_close hf hnew (by omega) hlast]
    | @cons g v gs vs hg hgs =>
      have hbegins := hg.begins.intercalate (↑ ',' :: between) vs
      rw [List.intercalate_cons_cons] at hfuel ⊢
      simp only [List.length_append, List.length_cons] at hfuel
      rw [List.append_assoc, List.append_assoc, List.cons_append,
        parseFields_comma hf hnew (by omega), (hbegins.append _).skipBlanks hbetween,
        ih (by simp) (by omega) _ (by simpa using hkeys), List.append_assoc, List.singleton_append]

theorem parseValue_array_nil (h : skipBlanks t = ↑ ']' :: last) :
    parseValue (fuel + 1) (depth + 1) (↑ '[' :: t) = .ok (array [], last) := by
  rw [parseValue]
  simp only [h, if_true, if_neg (Nat.succ_ne_zero depth), List.head?_cons, List.tail_cons]

theorem parseValue_array {u : Text} (h : skipBlanks t = u) (hu : Begins ↑ ']' u) :
    parseValue (fuel + 1) (depth + 1) (↑ '[' :: t) = parseItems fuel depth [] u := by
  rw [parseValue]
  simp only [h, if_true, if_neg (Nat.succ_ne_zero depth), if_neg hu.head?_ne, Nat.add_sub_cancel]

theorem parseValue_object_nil (h : skipBlanks t = ↑ '}' :: last) :
    parseValue (fuel + 1) (depth + 1) (↑ '{' :: t) = .ok (object [], last) := by
  have hbracket : ¬ (↑ '{' : CodePoint) = ↑ '[' := by decide
  rw [parseValue]
  simp only [h, if_neg hbracket, if_true, if_neg (Nat.succ_ne_zero depth), List.head?_cons,
    List.tail_cons]

theorem parseValue_object {u : Text} (h : skipBlanks t = u) (hu : Begins ↑ '}' u) :
    parseValue (fuel + 1) (depth + 1) (↑ '{' :: t) = parseFields fuel depth [] u := by
  have hbracket : ¬ (↑ '{' : CodePoint) = ↑ '[' := by decide
  rw [parseValue]
  simp only [h, if_neg hbracket, if_true, if_neg (Nat.succ_ne_zero depth), if_neg hu.head?_ne,
    Nat.add_sub_cancel]

end Parts

def enclosed (opening closing : CodePoint) (first between last : Text) (parts : List Text) : Text :=
  opening :: (first ++ (List.intercalate (↑ ',' :: between) parts ++ (last ++ [closing])))

section Enclosed

variable {opening closing : CodePoint} {first between last : Text} {ts : List Text}

theorem enclosed_append (rest : Text) :
    enclosed opening closing first between last ts ++ rest = opening ::
      (first ++ (List.intercalate (↑ ',' :: between) ts ++ (last ++ closing :: rest))) := by
  simp [enclosed]

theorem exists_fuel_of_enclosed {fuel : Nat}
    (h : (enclosed opening closing first between last ts).length ≤ fuel) :
    ∃ spent, fuel = spent + 1 ∧ (List.intercalate (↑ ',' :: between) ts).length < spent := by
  simp only [enclosed, List.length_cons, List.length_append] at h
  exact ⟨fuel - 1, by omega, by omega⟩

theorem skipBlanks_enclosed_nil (hfirst : Blanks first) (hlast : Blanks last)
    (hclosing : isBlank closing = false) (rest : Text) :
    skipBlanks (first ++ (List.intercalate (↑ ',' :: between) [] ++ (last ++ closing :: rest))) =
      closing :: rest := by
  rw [List.intercalate_nil, List.nil_append, ← List.append_assoc]
  exact skipBlanks_close (List.forall_mem_append.2 ⟨hfirst, hlast⟩) hclosing rest

variable {depth : Nat}

theorem Reads.array {vs : List Json} (h : List.Forall₂ (Reads depth) vs ts) (hfirst : Blanks first)
    (hbetween : Blanks between) (hlast : Blanks last) :
    Reads (depth + 1) (.array vs) (enclosed '[' ']' first between last ts) where
  begins := ⟨↑ '[', _, rfl, by decide, by decide⟩
  value fuel rest hfuel hrest := by
    obtain ⟨spent, rfl, hspent⟩ := exists_fuel_of_enclosed hfuel
    rw [enclosed_append]
    cases h with
    | nil => exact parseValue_array_nil (skipBlanks_enclosed_nil hfirst hlast (by decide) rest)
    | @cons v t vs ts hv hvs =>
      have hbegins := (hv.begins.intercalate (↑ ',' :: between) ts).append (last ++ ↑ ']' :: rest)
      rw [parseValue_array (hbegins.skipBlanks hfirst) hbegins,
        parseItems_intercalate (.cons hv hvs) (by simp) hbetween hlast hspent]
      rfl

theorem Reads.object {fs : List (Text × Json)} (h : List.Forall₂ (ReadsField depth) fs ts)
    (hkeys : (fs.map Prod.fst).Nodup) (hfirst : Blanks first) (hbetween : Blanks between)
    (hlast : Blanks last) :
    Reads (depth + 1) (.object fs) (enclosed '{' '}' first between last ts) where
  begins := ⟨↑ '{', _, rfl, by decide, by decide⟩
  value fuel rest hfuel hrest := by
    obtain ⟨spent, rfl, hspent⟩ := exists_fuel_of_enclosed hfuel
    rw [enclosed_append]
    cases h with
    | nil => exact parseValue_object_nil (skipBlanks_enclosed_nil hfirst hlast (by decide) rest)
    | @cons f t fs ts hf hfs =>
      have hbegins := (hf.begins.intercalate (↑ ',' :: between) ts).append (last ++ ↑ '}' :: rest)
      rw [parseValue_object (hbegins.skipBlanks hfirst) hbegins,
        parseFields_intercalate (.cons hf hfs) (by simp) hbetween hlast hspent [] hkeys]
      rfl

end Enclosed

theorem parse_of_reads {v : Json} {t : Text} (h : Reads maxDepth v t) : parse t = .ok v := by
  have hskip : skipBlanks t = t := h.begins.skipBlanks (b := []) (by simp [Blanks])
  have hvalue := h.value (2 * t.length + 2) [] (by omega) .nil
  rw [List.append_nil] at hvalue
  rw [parse, hskip, hvalue]
  rfl

end MaxEnt.Json
