import Mathlib.Data.List.Infix
import MaxEnt.Proofs.Except
import MaxEnt.Proofs.Files.Glob
import MaxEnt.Proofs.Files.Path
import MaxEnt.Proofs.Table

namespace MaxEnt

namespace FileTree

variable {tree : FileTree} {folder here : Path} {t : Text}

/-- The path leads to a folder, which is here. -/
structure Located (tree : FileTree) (folder here : Path) : Prop where
  resolve : tree.resolve folder = .ok here
  node? : tree.node? here = some .folder

theorem exists_located (h : tree.isFolder folder = true) : ∃ here, Located tree folder here := by
  unfold isFolder at h
  split at h
  · rename_i hfind
    rw [find, Except.bind_eq_ok_iff] at hfind
    obtain ⟨here, hresolve, hnode⟩ := hfind
    refine ⟨here, hresolve, ?_⟩
    split at hnode
    · rename_i hnode'
      cases hnode
      exact hnode'
    · cases hnode
  · cases h

structure Admits (folder : Path) (t : Text) : Prop where
  check : checkPath (folder.child t) = .ok ()
  byteCount_le : byteCount t ≤ maxNameBytes
  ne_up : t ≠ ↑ ".."

instance (folder : Path) (t : Text) : Decidable (Admits folder t) :=
  decidable_of_iff (checkPath (folder.child t) = .ok () ∧ byteCount t ≤ maxNameBytes ∧ t ≠ ↑ "..")
    ⟨fun h => ⟨h.1, h.2.1, h.2.2⟩, fun h => ⟨h.check, h.byteCount_le, h.ne_up⟩⟩

theorem step_eq_ok_iff {part : Text} {there : Path} :
    tree.step here part = .ok there ↔ tree.node? here = some .folder ∧
      (part = ↑ ".." ∧ there = here.parent ∨
        part ≠ ↑ ".." ∧ byteCount part ≤ maxNameBytes ∧ there = here.child part) := by
  unfold step
  split
  · simp [*]
  · simp [*]
  · rename_i hnode
    split
    · rename_i hup
      simp [hnode, hup, eq_comm]
    · rename_i hup
      split
      · rename_i hlong
        simp [hup, Nat.not_le_of_lt hlong]
      · rename_i hshort
        simp [hnode, hup, Nat.le_of_not_lt hshort, Path.child, eq_comm]

theorem resolve_child (h : Located tree folder here) :
    tree.resolve (folder.child t) = checkPath (folder.child t) >>= fun _ => tree.step here t := by
  have hfolder := h.resolve
  rw [resolve, Except.bind_eq_ok_iff] at hfolder
  obtain ⟨-, -, hfold⟩ := hfolder
  have hchild : (folder.child t).parts.foldlM tree.step
      ⟨if folder.root.isEmpty then "" else "/", []⟩ = tree.step here t := by
    rw [Path.child, List.foldlM_append, hfold]
    change (tree.step here t >>= fun q => pure q) = _
    exact bind_pure _
  rw [resolve]
  exact congrArg (checkPath (folder.child t) >>= fun _ => ·) hchild

theorem resolve_child_of_admits (h : Located tree folder here) (ht : Admits folder t) :
    tree.resolve (folder.child t) = .ok (here.child t) := by
  rw [resolve_child h, ht.check]
  exact step_eq_ok_iff.2 ⟨h.node?, .inr ⟨ht.ne_up, ht.byteCount_le, rfl⟩⟩

theorem admits_of_resolve (h : Located tree folder here) (hup : t ≠ ↑ "..") {there : Path}
    (hresolve : tree.resolve (folder.child t) = .ok there) :
    Admits folder t ∧ there = here.child t := by
  rw [resolve_child h, Except.bind_eq_ok_iff] at hresolve
  obtain ⟨⟨⟩, hcheck, hstep⟩ := hresolve
  obtain ⟨-, ⟨hup', -⟩ | ⟨-, hcount, rfl⟩⟩ := step_eq_ok_iff.1 hstep
  · exact absurd hup' hup
  · exact ⟨⟨hcheck, hcount, hup⟩, rfl⟩

section Kept

variable {after : FileTree} {p : Path}

def KeepsFolders (tree after : FileTree) : Prop :=
  ∀ p, tree.node? p = some .folder → after.node? p = some .folder

theorem KeepsFolders.step (h : KeepsFolders tree after) {part : Text} {there : Path}
    (hstep : tree.step here part = .ok there) : after.step here part = .ok there := by
  rw [step_eq_ok_iff] at hstep ⊢
  exact ⟨h here hstep.1, hstep.2⟩

theorem KeepsFolders.foldlM_step (h : KeepsFolders tree after) {parts : List Text} {there : Path}
    (hfold : parts.foldlM tree.step here = .ok there) :
    parts.foldlM after.step here = .ok there := by
  induction parts generalizing here with
  | nil => exact hfold
  | cons part parts ih =>
    rw [List.foldlM_cons, Except.bind_eq_ok_iff] at hfold ⊢
    obtain ⟨q, hq, hrest⟩ := hfold
    exact ⟨q, h.step hq, ih hrest⟩

theorem KeepsFolders.resolve (h : KeepsFolders tree after) (hp : tree.resolve p = .ok here) :
    after.resolve p = .ok here := by
  rw [FileTree.resolve, Except.bind_eq_ok_iff] at hp ⊢
  obtain ⟨⟨⟩, hcheck, hfold⟩ := hp
  exact ⟨(), hcheck, h.foldlM_step hfold⟩

theorem Located.of_keepsFolders (h : Located tree folder here) (hkeeps : KeepsFolders tree after) :
    Located after folder here :=
  ⟨hkeeps.resolve h.resolve, hkeeps here h.node?⟩

end Kept

def put (tree : FileTree) (p : Path) (content : File) : FileTree :=
  ⟨tree.nodes.insert p (.file content)⟩

theorem node?_of_ne_nil {p : Path} (h : p.parts ≠ []) : tree.node? p = tree.nodes.get? p :=
  if_neg (mt List.isEmpty_iff.1 h)

theorem parts_child_ne_nil (p : Path) (t : Text) : (p.child t).parts ≠ [] := by simp [Path.child]

theorem node?_child (tree : FileTree) (p : Path) (t : Text) :
    tree.node? (p.child t) = tree.nodes.get? (p.child t) := node?_of_ne_nil (parts_child_ne_nil p t)

theorem node?_insert {p : Path} (h : p.parts ≠ []) (node : Node) (q : Path) :
    (⟨tree.nodes.insert p node⟩ : FileTree).node? q =
      if q = p then some node else tree.node? q := by
  by_cases hq : q = p
  · rw [if_pos hq, hq, node?_of_ne_nil h, Table.get?_insert, if_pos rfl]
  · unfold FileTree.node?
    rw [if_neg hq, Table.get?_insert, if_neg hq]

theorem node?_put (tree : FileTree) (p : Path) (t : Text) (content : File) (q : Path) :
    (tree.put (p.child t) content).node? q =
      if q = p.child t then some (.file content) else tree.node? q :=
  node?_insert (parts_child_ne_nil p t) _ q

theorem keepsFolders_put {p : Path} (hparts : p.parts ≠ []) (hp : tree.node? p ≠ some .folder)
    (content : File) : KeepsFolders tree (tree.put p content) := by
  intro q hq
  have hne : ¬ q = p := by
    rintro rfl
    exact hp hq
  rw [put, node?_insert hparts, if_neg hne, hq]

theorem Located.put {p : Path} (h : Located tree folder here)
    (hp : tree.node? (p.child t) ≠ some .folder) (content : File) :
    Located (tree.put (p.child t) content) folder here :=
  h.of_keepsFolders (keepsFolders_put (parts_child_ne_nil p t) hp content)

section Writing

variable {content : File} {after : FileTree}

theorem write_eq_ok_iff {p : Path} : tree.write p content = .ok after ↔
    ∃ q, tree.resolve p = .ok q ∧ tree.node? q ≠ some .folder ∧ after = tree.put q content := by
  rw [write, place, Except.bind_eq_ok_iff]
  constructor
  · rintro ⟨q, hplace, hafter⟩
    rw [Except.bind_eq_ok_iff] at hplace
    obtain ⟨r, hresolve, hnode⟩ := hplace
    split at hnode
    · cases hnode
    · rename_i hfolder
      cases hnode
      cases hafter
      exact ⟨q, hresolve, hfolder, rfl⟩
  · rintro ⟨q, hresolve, hfolder, rfl⟩
    exact ⟨q, Except.bind_eq_ok_iff.2 ⟨q, hresolve, if_neg hfolder⟩, rfl⟩

theorem write_child (h : Located tree folder here) (hup : t ≠ ↑ "..")
    (hwrite : tree.write (folder.child t) content = .ok after) :
    Admits folder t ∧ tree.node? (here.child t) ≠ some .folder ∧
      after = tree.put (here.child t) content := by
  obtain ⟨q, hresolve, hfolder, hafter⟩ := write_eq_ok_iff.1 hwrite
  obtain ⟨hadmits, rfl⟩ := admits_of_resolve h hup hresolve
  exact ⟨hadmits, hfolder, hafter⟩

theorem write_child_eq_ok (h : Located tree folder here) (ht : Admits folder t)
    (hnode : tree.node? (here.child t) ≠ some .folder) (content : File) :
    tree.write (folder.child t) content = .ok (tree.put (here.child t) content) :=
  write_eq_ok_iff.2 ⟨_, resolve_child_of_admits h ht, hnode, rfl⟩

end Writing

section Reading

variable {content : File}

theorem read_eq_ok_iff {p : Path} : tree.read p = .ok content ↔
    ∃ q, tree.resolve p = .ok q ∧ tree.node? q = some (.file content) := by
  rw [read, find, Except.bind_eq_ok_iff]
  constructor
  · rintro ⟨node, hfind, hread⟩
    rw [Except.bind_eq_ok_iff] at hfind
    obtain ⟨q, hresolve, hnode⟩ := hfind
    refine ⟨q, hresolve, ?_⟩
    split at hnode
    · rename_i hnode'
      cases hnode
      split at hread
      · cases hread
        exact hnode'
      · cases hread
    · cases hnode
  · rintro ⟨q, hresolve, hnode⟩
    refine ⟨.file content, Except.bind_eq_ok_iff.2 ⟨q, hresolve, ?_⟩, rfl⟩
    simp only [hnode]
    rfl

theorem find_child (h : Located tree folder here) (ht : Admits folder t)
    (hnode : tree.node? (here.child t) = some (.file content)) :
    tree.find (folder.child t) = .ok (.file content) := by
  rw [find, resolve_child_of_admits h ht]
  simp only [bind, Except.bind, hnode]
  rfl

theorem read_child (h : Located tree folder here) (ht : Admits folder t)
    (hnode : tree.node? (here.child t) = some (.file content)) :
    tree.read (folder.child t) = .ok content :=
  read_eq_ok_iff.2 ⟨_, resolve_child_of_admits h ht, hnode⟩

theorem contains_child (h : Located tree folder here) (ht : Admits folder t)
    (hnode : tree.node? (here.child t) = some (.file content)) :
    tree.contains (folder.child t) = .ok true := by
  rw [contains, find_child h ht hnode]

theorem remove_write {p : Path} {after : FileTree} (hfree : ∀ content, tree.read p ≠ .ok content)
    (hwrite : tree.write p content = .ok after) : after.remove p = .ok tree := by
  obtain ⟨q, hresolve, hfolder, rfl⟩ := write_eq_ok_iff.1 hwrite
  have hnone : tree.node? q = none := by
    cases hnode : tree.node? q with
    | none => rfl
    | some node =>
      cases node with
      | file content => exact absurd (read_eq_ok_iff.2 ⟨q, hresolve, hnode⟩) (hfree content)
      | folder => exact absurd hnode hfolder
  have hparts : q.parts ≠ [] := by
    intro hnil
    rw [FileTree.node?, hnil] at hnone
    cases hnone
  have hresolved := (keepsFolders_put hparts hfolder content).resolve hresolve
  have hstands : (tree.put q content).node? q = some (.file content) := by
    rw [put, node?_insert hparts, if_pos rfl]
  have herased : (tree.put q content).nodes.erase q = tree.nodes :=
    Table.erase_insert (node?_of_ne_nil hparts ▸ hnone) _
  rw [remove, read_eq_ok_iff.2 ⟨q, hresolved, hstands⟩, hresolved]
  exact congrArg (fun nodes => Except.ok (FileTree.mk nodes)) herased

end Reading

theorem mem_names (h : Located tree folder here) :
    t ∈ tree.names folder ↔ (tree.node? (here.child t)).isSome = true := by
  rw [node?_child, Table.isSome_get?_iff, names, below, h.resolve]
  simp only [List.mem_filterMap, Table.keys, List.mem_map, Prod.exists]
  constructor
  · rintro ⟨parts, node, ⟨r, node', hmem, hbelow⟩, hname⟩
    split at hbelow
    · rename_i hprefix
      cases hbelow
      rw [Bool.and_eq_true, decide_eq_true_eq, List.isPrefixOf_iff_prefix,
        List.prefix_iff_eq_append] at hprefix
      split at hname
      · rename_i hdrop
        cases hname
        rw [hdrop] at hprefix
        obtain ⟨root, parts⟩ := r
        obtain ⟨rfl, rfl⟩ := hprefix
        exact ⟨_, node, hmem, rfl⟩
      · cases hname
    · cases hbelow
  · rintro ⟨r, node, hmem, rfl⟩
    refine ⟨[t], node, ⟨_, node, hmem, ?_⟩, rfl⟩
    simp [Path.child]

theorem isFolder_of_located (h : Located tree folder here) : tree.isFolder folder = true := by
  have hfind : tree.find folder = .ok .folder := by
    rw [find, h.resolve]
    simp only [bind, Except.bind, h.node?]
    rfl
  rw [isFolder, hfind]

theorem two_le_count_of_hasTwoStars (h : hasTwoStars t = true) : 2 ≤ t.count ↑ '*' := by
  induction t with
  | nil => cases h
  | cons c t ih =>
    cases t with
    | nil => cases h
    | cons d t =>
      have hstep : hasTwoStars (c :: d :: t) =
          ((CodePoint.ofChar '*', CodePoint.ofChar '*') == (c, d) || hasTwoStars (d :: t)) := rfl
      rw [hstep, Bool.or_eq_true, beq_iff_eq, Prod.mk.injEq] at h
      rcases h with ⟨rfl, rfl⟩ | hrest
      · rw [List.count_cons_self, List.count_cons_self]
        omega
      · exact (ih hrest).trans List.count_le_count_cons

section Starred

variable {front last : Text}

theorem count_star (hfront : Glob.Literal front) (hlast : Glob.Literal last) :
    (front ++ ↑ '*' :: last).count ↑ '*' = 1 := by
  rw [List.count_append, List.count_cons_self, List.count_eq_zero.2 fun hm => (hfront _ hm).1 rfl,
    List.count_eq_zero.2 fun hm => (hlast _ hm).1 rfl]

theorem select_wild {pattern : Text} (htwo : pattern ≠ twoStars) (hwild : Glob.isWild pattern = true) :
    tree.select [pattern] folder =
      .ok (((tree.names folder).filter (Glob.ofText pattern).accepts).map folder.child) := by
  have henter : ∀ names : List Text,
      (names.mapM fun name => tree.select [] (folder.child name)) =
        (.ok (names.map fun name => [folder.child name]) : Except FileError _) := fun names =>
    List.mapM_pure
  rw [select, if_neg htwo, if_pos hwild]
  change ((((tree.names folder).filter (Glob.ofText pattern).accepts).mapM fun name =>
    tree.select [] (folder.child name)) >>= fun found => pure found.flatten) = _
  rw [henter]
  change Except.ok _ = Except.ok _
  rw [← List.flatMap_def, List.map_eq_flatMap]

theorem glob_starred (h : Located tree folder here) (hfront : Glob.Literal front)
    (hlast : Glob.Literal last) (hslash : ↑ '/' ∉ front ++ ↑ '*' :: last) (hne : front ≠ []) :
    ∃ names : List Text, tree.glob folder (front ++ ↑ '*' :: last) = .ok (names.map folder.child) ∧
      ∀ t, t ∈ names ↔ (tree.node? (here.child t)).isSome = true ∧
        ∃ middle, t = front ++ (middle ++ last) := by
  have hcount := count_star hfront hlast
  have htwoStars : ¬ hasTwoStars (front ++ ↑ '*' :: last) = true := by
    intro htwo
    have hle := two_le_count_of_hasTwoStars htwo
    omega
  have hstar : ↑ '*' ∈ front ++ ↑ '*' :: last := by simp
  have hpart : Path.isPart (front ++ ↑ '*' :: last) = true := by
    have hdot : front ++ ↑ '*' :: last ≠ ↑ "." := fun he => absurd (he ▸ hstar) (by decide)
    simp [Path.isPart, hdot]
  have htwo : front ++ ↑ '*' :: last ≠ twoStars := by
    obtain ⟨c, u, rfl⟩ := List.exists_cons_of_ne_nil hne
    intro he
    exact (hfront c (by simp)).1 (List.cons.inj he).1
  have hwild : Glob.isWild (front ++ ↑ '*' :: last) = true :=
    List.any_eq_true.2 ⟨_, hstar, by decide⟩
  refine ⟨(tree.names folder).filter (Glob.ofText (front ++ ↑ '*' :: last)).accepts, ?_, fun t => ?_⟩
  · rw [glob, Path.ofText_of_not_mem hslash hpart]
    simp only [List.isEmpty_nil, Bool.not_true, Bool.false_eq_true, if_false, List.any_cons,
      List.any_nil, htwoStars, Bool.and_false, Bool.or_self, isFolder_of_located h, if_true,
      select_wild htwo hwild]
    rfl
  · rw [List.mem_filter, mem_names h, Glob.accepts_ofText hfront hlast]

end Starred

end FileTree

end MaxEnt
