import MaxEnt.Codec.PlainText
import MaxEnt.Proofs.Codec.Binary
import MaxEnt.Proofs.Codec.Spending
import MaxEnt.Proofs.Model.Checks
import MaxEnt.Proofs.Table
import MaxEnt.Proofs.Text.Pieces

namespace MaxEnt

namespace GroupPattern

theorem getElem?_spread {before after : List GroupPattern} {g : GroupPattern} {i : Nat}
    (hlow : covered before ≤ i) (hhigh : i < covered before + g.count) :
    (spread (before ++ g :: after))[i]? = some g.outcomes := by
  have hbefore : (spread before).length = covered before := PredicateGroup.length_spread before
  have hspread : spread (before ++ g :: after) =
      spread before ++ (List.replicate g.count g.outcomes ++ spread after) := by
    simp [spread]
  rw [hspread, List.getElem?_append_right (by omega), List.getElem?_append_left (by simp; omega),
    List.getElem?_replicate, if_pos (by omega)]

end GroupPattern

structure Listing where
  constant : Int
  parameter : Binary64
  labels : List Text
  tokens : List Text
  names : List Text
  params : List (List Binary64)

namespace Listing

def head (l : Listing) : List Field :=
  [.utf Model.tag, .int l.constant, .double l.parameter] ++
    (.int l.labels.length :: l.labels.map .utf) ++ (.int l.tokens.length :: l.tokens.map .utf) ++
    (.int l.names.length :: l.names.map .utf)

def fields (l : Listing) : List Field := l.head ++ l.params.flatten.map .double

/-- The model is made of what is listed, the tokens being read as `patterns`. Of a name that is
listed several times the last place counts. -/
structure Makes (l : Listing) (patterns : List GroupPattern) (m : Model Binary64) : Prop where
  tokens : l.tokens.mapM GroupPattern.ofToken? = some patterns
  covered : GroupPattern.covered patterns = l.names.length
  length_params : l.params.length = l.names.length
  labels : m.labels = l.labels
  two_le : 2 ≤ m.labels.length
  nodup : m.labels.Nodup
  names : ∀ name, (m.predicates.get? name).isSome ↔ name ∈ l.names
  places : ∀ before g after i, patterns = before ++ g :: after → GroupPattern.covered before ≤ i →
    i < GroupPattern.covered before + g.count →
    ∃ name params, l.names[i]? = some name ∧ l.params[i]? = some params ∧
      params.length = g.outcomes.length ∧
      (name ∉ l.names.drop (i + 1) →
        ∃ p, m.predicates.get? name = some p ∧ p.outcomes = g.outcomes ∧ p.params = params)
  ranges : ∀ name p, m.predicates.get? name = some p →
    p.params.length = p.outcomes.length ∧ p.InRange m.labels.length

theorem makes_ofTable {l : Listing} {patterns : List GroupPattern} {m : Model Binary64}
    {ps : List (Text × Predicate Binary64)}
    (htokens : l.tokens.mapM GroupPattern.ofToken? = some patterns)
    (hcovered : GroupPattern.covered patterns = l.names.length)
    (hshapes : ps.map (fun p => (p.1, p.2.outcomes)) = l.names.zip (GroupPattern.spread patterns))
    (hparams : l.params = ps.map (·.2.params))
    (hm : Model.ofTable l.labels (Table.ofList ps) = .ok m) : l.Makes patterns m := by
  obtain ⟨hlabels, hpredicates⟩ := Model.ofTable_ok hm
  have hspread : (GroupPattern.spread patterns).length = l.names.length := by
    rw [PredicateGroup.length_spread, hcovered]
  have hnames : ps.map Prod.fst = l.names := by
    have h := congrArg (List.map Prod.fst) hshapes
    rwa [List.map_map, List.map_fst_zip hspread.ge] at h
  have houtcomes : ps.map (·.2.outcomes) = GroupPattern.spread patterns := by
    have h := congrArg (List.map Prod.snd) hshapes
    rwa [List.map_map, List.map_snd_zip hspread.le] at h
  refine ⟨htokens, hcovered, ?_, hlabels, m.two_le, m.labels_nodup, ?_, ?_, ?_⟩
  · rw [hparams, ← hnames, List.length_map, List.length_map]
  · intro name
    rw [hpredicates, Table.isSome_get?_ofList, hnames]
  · intro before g after i hpatterns hlow hhigh
    have hat : (ps.map (·.2.outcomes))[i]? = some g.outcomes := by
      rw [houtcomes, hpatterns, GroupPattern.getElem?_spread hlow hhigh]
    rw [List.getElem?_map, Option.map_eq_some_iff] at hat
    obtain ⟨⟨name, p⟩, hp, hg⟩ := hat
    refine ⟨name, p.params, by rw [← hnames, List.getElem?_map, hp]; rfl,
      by rw [hparams, List.getElem?_map, hp]; rfl, ?_, fun hlast => ⟨p, ?_, hg, rfl⟩⟩
    · rw [← hg]
      simp [Predicate.params, Predicate.outcomes]
    · rw [hpredicates]
      exact Table.get?_ofList_of_getElem? hp (by rwa [hnames])
  · intro name p hp
    have hmem := (Table.get?_eq_some_iff _ _ _).1 hp
    exact ⟨by simp [Predicate.params, Predicate.outcomes],
      m.inRange p (List.mem_map_of_mem (f := Prod.snd) hmem)⟩

end Listing

namespace Reader

variable {σ : Type} {size : σ → Nat} {sound : σ → Prop} {r : Reader σ}

/-- The counts in the tokens, which are all that was read but for parameters, have a sum that is too
long for a message. -/
def Overflows (fs : List Field) : Prop :=
  ∃ (l : Listing) (patterns : List GroupPattern), fs = l.head ∧
    l.tokens.mapM GroupPattern.ofToken? = some patterns ∧
    Numeral.maxDigits < (Numeral.digits (GroupPattern.covered patterns)).length

theorem Spending.tracks_model (h : Spending size sound r) :
    Tracks size sound r.model r.watched.model
      (fun m fs => ∃ (l : Listing) (patterns : List GroupPattern),
        fs = l.fields ∧ l.Makes patterns m)
      (fun e fs => e.IsFormat ∨ e = .hugeCount ∧ Overflows fs) := by
  rw [model_eq, model_eq]
  refine (h.tracks_utf.or_error _).bind fun tag fs htag => ?_
  subst htag
  split
  · exact tracks_throw (Or.inl trivial)
  rename_i htag
  obtain rfl : tag = Model.tag := not_not.1 htag
  refine (h.tracks_int.or_error _).bind fun constant fs hconstant =>
    (h.tracks_double.or_error _).bind fun parameter fs' hparameter =>
    ((h.tracks_list h.tracks_utf).or_error _).bind fun labels fs₁ hlabels =>
    ((h.tracks_list h.tracks_groupPattern).or_error _).bind fun patterns fs₂ hpatterns =>
    ((h.tracks_list h.tracks_utf).or_error _).bind fun names fs₃ hnames =>
    (h.tracks_assemble labels patterns names).imp (fun m gs hm => ?_) fun e gs he => ?_
  -- What was found up to the names is the head of the same listing, whether the parameters follow
  -- or the counts are too large.
  all_goals
    obtain ⟨gs₁, rfl, hlabels⟩ := hlabels
    obtain ⟨gs₂, rfl, hpatterns⟩ := hpatterns
    obtain ⟨gs₃, rfl, hnames⟩ := hnames
    obtain ⟨tokens, rfl, hlength, htokens⟩ := hpatterns.tokens
    rw [hconstant, hparameter, hlabels.eq_map, hnames.eq_map]
  · obtain ⟨hcovered, ps, hshapes, rfl, hm⟩ := hm
    refine ⟨⟨constant, parameter, labels, tokens, names, ps.map (·.2.params)⟩, patterns, ?_,
      Listing.makes_ofTable htokens hcovered hshapes rfl hm⟩
    simp [Listing.fields, Listing.head, hlength]
  · refine he.imp id fun ⟨he, hgs, hdigits⟩ => ⟨he, ?_⟩
    refine ⟨⟨constant, parameter, labels, tokens, names, []⟩, patterns, ?_, htokens, hdigits⟩
    simp [Listing.head, hlength, hgs]

/-- What reading a model from any input comes to: requests within the limit, and either a model of
what was found or an error that tells of malformed data. The one other error is that of counts
whose sum is too long for a message. -/
def Total (r : Reader σ) (s : σ) (limit : Nat) : Prop :=
  ∃ result t requests found,
    r.watched.model.run ⟨s, 0, []⟩ = (result, ⟨t, requests, found⟩) ∧
      r.model.run s = (result, t) ∧ requests ≤ limit ∧
      match result with
      | .ok m => ∃ (l : Listing) (patterns : List GroupPattern), found = l.fields ∧ l.Makes patterns m
      | .error e => e.IsFormat ∨ e = .hugeCount ∧ Overflows found

theorem Spending.total (h : Spending size sound r) {s : σ} (hs : sound s) :
    r.Total s (size s + 1) := by
  obtain ⟨result, t, requests, fs, hwatched, hmodel, -, hsize, hends⟩ :=
    h.tracks_model ⟨s, 0, []⟩ hs
  simp only [Nat.zero_add, List.nil_append] at hwatched hsize
  refine ⟨result, t, requests, fs, hwatched, hmodel, ?_⟩
  cases result with
  | ok m => exact ⟨by have hrequests := hends.1; omega, hends.2⟩
  | error e => exact ⟨by have hrequests := hends.1; omega, hends.2⟩

end Reader

namespace Binary

open Reader

def anyBytes : List UInt8 → Prop := fun _ => True

theorem keeps_take (count : Nat) : Keeps List.length anyBytes (take count) := by
  intro s _
  refine ⟨trivial, ?_⟩
  rw [run_take]
  by_cases h : (s.take count).length < count
  · simp only [if_pos h]
    exact ⟨Nat.zero_le _, trivial⟩
  · simp only [if_neg h, List.length_drop]
    omega

theorem spends_take {count : Nat} (hcount : 0 < count) :
    Spends List.length anyBytes (take count) := by
  intro s _
  refine ⟨trivial, ?_⟩
  rw [run_take]
  by_cases h : (s.take count).length < count
  · simp only [if_pos h]
    exact ⟨Nat.zero_le _, trivial⟩
  · simp only [if_neg h, List.length_drop]
    rw [List.length_take] at h
    omega

theorem spending : Spending List.length anyBytes reader where
  utf := by
    refine (spends_take (by decide)).bind fun length => (keeps_take _).bind fun bytes => ?_
    cases ModifiedUtf8.decode bytes with
    | ok value => exact keeps_pure value
    | error place => exact keeps_throw trivial
  int := (spends_take (by decide)).bind fun bytes => keeps_pure _
  double := (spends_take (by decide)).bind fun bytes => keeps_pure _

end Binary

namespace PlainText

open Reader

def decodable (s : Lines) : Prop := s.undecodable = false

theorem spends_utf : Spends (fun s => s.read.length) decodable utf := by
  rintro ⟨lines, undecodable⟩ hs
  obtain rfl : undecodable = false := hs
  cases lines with
  | nil => exact ⟨rfl, Nat.le_refl _, trivial⟩
  | cons line rest => exact ⟨rfl, Nat.le_refl _⟩

theorem spending : Spending (fun s => s.read.length) decodable reader where
  utf := spends_utf
  int := by
    refine spends_utf.bind fun line => ?_
    cases Numeral.integer? line with
    | some n => exact keeps_pure n
    | none => exact keeps_throw trivial
  double := by
    refine spends_utf.bind fun line => ?_
    cases Numeral.real? line with
    | some x => exact keeps_pure x
    | none => exact keeps_throw trivial

end PlainText

/-- Both readers end on every input, after no more requests than the input is long and one more. -/
theorem Reader.total_binary_plainText :
    (∀ bytes : List UInt8, Binary.reader.Total bytes (bytes.length + 1)) ∧
      ∀ t : Text, PlainText.reader.Total (Lines.ofText t) (t.length + 1) := by
  refine ⟨fun bytes => Binary.spending.total trivial, fun t => ?_⟩
  obtain ⟨result, s, requests, found, hwatched, hmodel, hrequests, hends⟩ :=
    PlainText.spending.total (s := Lines.ofText t) rfl
  have hlines : (Lines.ofText t).read.length ≤ t.length := Text.length_lines_le t
  exact ⟨result, s, requests, found, hwatched, hmodel, by omega, hends⟩

end MaxEnt
