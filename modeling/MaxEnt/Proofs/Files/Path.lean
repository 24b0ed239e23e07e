import Mathlib.Data.List.TakeWhile
import MaxEnt.Codec.ModelFile
import MaxEnt.Proofs.Text.Pieces

namespace MaxEnt

namespace Text

theorem splitOn_append_separator (separator : CodePoint) (t u : Text) :
    splitOn separator (t ++ separator :: u) = splitOn separator t ++ splitOn separator u := by
  induction t with
  | nil =>
    rw [List.nil_append, splitOn_separator]
    rfl
  | cons c t ih =>
    obtain ⟨p, ps, hp⟩ := List.exists_cons_of_ne_nil (splitOn_ne_nil separator t)
    rw [List.cons_append, splitOn_cons, ih, splitOn_cons, hp]
    unfold cutStep
    split <;> simp

end Text

namespace Path

def child (p : Path) (name : Text) : Path := ⟨p.root, p.parts ++ [name]⟩

theorem child_inj {p : Path} {s t : Text} : p.child s = p.child t ↔ s = t := by
  simp [child]

theorem name_child (p : Path) (t : Text) : (p.child t).name = t := by
  simp [name, child]

theorem withName_child (p : Path) (s t : Text) : (p.child s).withName t = p.child t := by
  simp [withName, child]

theorem child_lt_child {p : Path} {s t : Text} (h : s < t) : (p.child s).parts < (p.child t).parts :=
  List.append_left_lt (List.cons_lt_cons_iff.2 (.inl h))

theorem ofText_of_not_mem {t : Text} (hslash : ↑ '/' ∉ t) (hpart : isPart t = true) :
    ofText t = ⟨[], [t]⟩ := by
  have hroot : rootOf t = [] := by
    cases t with
    | nil => rfl
    | cons c t =>
      have hc : ¬ c = ↑ '/' := fun he => hslash (by simp [he])
      simp [rootOf, hc]
      rfl
  rw [ofText, hroot, Text.splitOn_of_not_mem hslash]
  simp [hpart]

theorem join_ofText {t : Text} (hslash : ↑ '/' ∉ t) (hpart : isPart t = true) (p : Path) :
    p.join (ofText t) = p.child t := by
  rw [ofText_of_not_mem hslash hpart]
  rfl

theorem cutName_append {stem rest : Text} (hstem : stem ≠ []) (hrest : rest ≠ [])
    (hdot : ↑ '.' ∉ rest) : cutName (stem ++ ↑ '.' :: rest) = (stem, ↑ '.' :: rest) := by
  rw [cutName, Text.splitLast_append hdot]
  simp [hstem, hrest]

theorem getLast?_suffixes {p : Path} {stem rest : Text} (hname : p.name = stem ++ ↑ '.' :: rest)
    (hrest : rest ≠ []) (hdot : ↑ '.' ∉ rest) {c : CodePoint} (hc : c ∈ stem) (hne : c ≠ ↑ '.') :
    p.suffixes.getLast? = some (↑ '.' :: rest) := by
  have hlast : ¬ p.name.getLast? = some ↑ '.' := by
    rw [hname, List.getLast?_append, List.getLast?_cons]
    obtain ⟨d, hd⟩ := Option.ne_none_iff_exists'.1 (mt List.getLast?_eq_none_iff.1 hrest)
    have hmem := List.mem_of_getLast? hd
    simp only [hd, Option.getD_some, Option.some_or, Option.some.injEq]
    rintro rfl
    exact hdot hmem
  have hdrop : p.name.dropWhile (· = ↑ '.') = stem.dropWhile (· = ↑ '.') ++ ↑ '.' :: rest := by
    have hfront : ¬ (stem.dropWhile (· = ↑ '.')).isEmpty = true := by
      rw [List.isEmpty_iff, List.dropWhile_eq_nil_iff]
      exact fun h => hne (of_decide_eq_true (h c hc))
    rw [hname, List.dropWhile_append, if_neg hfront]
  rw [suffixes, if_neg hlast, hdrop, Text.splitOn_append_separator, Text.splitOn_of_not_mem hdot]
  obtain ⟨q, qs, hq⟩ := List.exists_cons_of_ne_nil
    (Text.splitOn_ne_nil ↑ '.' (stem.dropWhile (· = ↑ '.')))
  simp [hq]

end Path

end MaxEnt
