import MaxEnt.Proofs.Files.Tree

namespace MaxEnt.FileTree

variable {tree middle after : FileTree} {folder here p : Path} {t : Text} {content : File}

/-- All that there was is there afterwards, and no files have come but the new ones. There may be
more folders. -/
structure Gains (tree after : FileTree) (new : List Path) : Prop where
  free : ∀ p ∈ new, tree.node? p = none
  stands : ∀ p ∈ new, ∃ content, after.node? p = some (.file content)
  kept : ∀ p node, tree.node? p = some node → after.node? p = some node
  files : ∀ p content, after.node? p = some (.file content) →
    p ∈ new ∨ tree.node? p = some (.file content)

namespace Gains

variable {new later : List Path}

theorem of_node?_eq (h : ∀ p, after.node? p = tree.node? p) : Gains tree after [] where
  free := by simp
  stands := by simp
  kept p node hp := (h p).trans hp
  files p content hp := .inr ((h p).symm.trans hp)

theorem refl (tree : FileTree) : Gains tree tree [] := of_node?_eq fun _ => rfl

theorem trans (h : Gains tree middle new) (hafter : Gains middle after later) :
    Gains tree after (new ++ later) where
  free := by
    -- What was there at first would still be there in the middle.
    refine List.forall_mem_append.2 ⟨h.free, fun p hp => ?_⟩
    cases hnode : tree.node? p with
    | none => rfl
    | some node =>
      have hmiddle := hafter.free p hp
      rw [h.kept p node hnode] at hmiddle
      cases hmiddle
  stands := by
    refine List.forall_mem_append.2 ⟨fun p hp => ?_, hafter.stands⟩
    obtain ⟨content, hcontent⟩ := h.stands p hp
    exact ⟨content, hafter.kept p _ hcontent⟩
  kept p node hp := hafter.kept p node (h.kept p node hp)
  files p content hp := by
    rw [List.mem_append, or_assoc]
    rcases hafter.files p content hp with hlater | hmiddle
    · exact .inr (.inl hlater)
    · exact (h.files p content hmiddle).imp_right .inr

theorem keepsFolders (h : Gains tree after new) : KeepsFolders tree after := fun p => h.kept p .folder

end Gains

theorem gains_put (h : tree.node? (p.child t) = none) (content : File) :
    Gains tree (tree.put (p.child t) content) [p.child t] where
  free := List.forall_mem_singleton.2 h
  stands := List.forall_mem_singleton.2 ⟨content, by rw [node?_put, if_pos rfl]⟩
  kept q node hq := by
    have hne : ¬ q = p.child t := by
      rintro rfl
      rw [h] at hq
      cases hq
    rw [node?_put, if_neg hne, hq]
  files q c hq := by
    rw [node?_put] at hq
    split at hq
    · rename_i hqp
      exact .inl (List.mem_singleton.2 hqp)
    · exact .inr hq

theorem remove_child (h : Located tree folder here) (ht : Admits folder t)
    (hnode : tree.node? (here.child t) = some (.file content)) :
    tree.remove (folder.child t) = .ok ⟨tree.nodes.erase (here.child t)⟩ := by
  rw [remove, read_child h ht hnode, resolve_child_of_admits h ht]
  rfl

theorem gains_erase_put (h : tree.node? (p.child t) = none) (content : File) :
    Gains tree ⟨(tree.put (p.child t) content).nodes.erase (p.child t)⟩ [] := by
  apply Gains.of_node?_eq
  intro q
  by_cases hq : q = p.child t
  · rw [hq, h, node?_child, Table.get?_erase, if_pos rfl]
  · unfold FileTree.node?
    rw [Table.get?_erase, if_neg hq, put, Table.get?_insert, if_neg hq]

section Folders

theorem makeFolder_eq_ok (h : tree.makeFolder p = .ok after) :
    ∃ q, tree.resolve p = .ok q ∧ tree.node? q = none ∧ q.parts ≠ [] ∧
      after = ⟨tree.nodes.insert q .folder⟩ := by
  rw [makeFolder, Except.bind_eq_ok_iff] at h
  obtain ⟨q, hresolve, hmade⟩ := h
  split at hmade
  · cases hmade
  · rename_i hnode
    rw [Option.not_isSome_iff_eq_none] at hnode
    have hparts : q.parts ≠ [] := by
      intro hnil
      rw [FileTree.node?, hnil] at hnode
      cases hnode
    exact ⟨q, hresolve, hnode, hparts, (Except.ok.inj hmade).symm⟩

theorem gains_makeFolder (h : tree.makeFolder p = .ok after) : Gains tree after [] := by
  obtain ⟨q, -, hnode, hparts, rfl⟩ := makeFolder_eq_ok h
  refine ⟨by simp, by simp, fun r node hr => ?_, fun r content hr => ?_⟩
  · have hne : ¬ r = q := by
      rintro rfl
      rw [hnode] at hr
      cases hr
    rw [node?_insert hparts, if_neg hne, hr]
  · rw [node?_insert hparts] at hr
    split at hr
    · cases hr
    · exact .inr hr

theorem exists_located_of_makeFolder (h : tree.makeFolder p = .ok after) :
    ∃ here, Located after p here := by
  have hkeeps := (gains_makeFolder h).keepsFolders
  obtain ⟨q, hresolve, -, hparts, rfl⟩ := makeFolder_eq_ok h
  exact ⟨q, hkeeps.resolve hresolve, by rw [node?_insert hparts, if_pos rfl]⟩

theorem ensureFolder_eq_ok (h : tree.ensureFolder p = .ok after) :
    Gains tree after [] ∧ ∃ here, Located after p here := by
  rw [ensureFolder] at h
  split at h
  · rename_i hfolder
    obtain rfl := Except.ok.inj h
    exact ⟨.refl tree, exists_located hfolder⟩
  · exact ⟨gains_makeFolder h, exists_located_of_makeFolder h⟩

theorem gains_foldlM_ensureFolder {ps : List Path}
    (h : ps.foldlM ensureFolder tree = .ok after) : Gains tree after [] := by
  induction ps generalizing tree with
  | nil =>
    obtain rfl := Except.ok.inj h
    exact .refl tree
  | cons p ps ih =>
    rw [List.foldlM_cons, Except.bind_eq_ok_iff] at h
    obtain ⟨middle, hp, hps⟩ := h
    exact (ensureFolder_eq_ok hp).1.trans (ih hps)

def upTo (p : Path) (i : Nat) : Path := ⟨p.root, p.parts.take (i + 1)⟩

def stairs (p : Path) : List Path := (List.range p.parts.length).map (upTo p)

theorem exists_stairs_eq (h : p.parts ≠ []) : ∃ ps, stairs p = ps ++ [p] := by
  obtain ⟨n, hn⟩ := Nat.exists_eq_succ_of_ne_zero (mt List.length_eq_zero_iff.1 h)
  have hlast : upTo p n = p := by
    rw [upTo, ← Nat.succ_eq_add_one, ← hn, List.take_length]
  refine ⟨(List.range n).map (upTo p), ?_⟩
  rw [stairs, hn, List.range_succ, List.map_append, List.map_singleton, hlast]

theorem makeFolders_eq_ok (h : tree.makeFolders p = .ok after) :
    checkPath p = .ok () ∧ (stairs p).foldlM ensureFolder tree = .ok after := by
  rw [makeFolders, Except.bind_eq_ok_iff] at h
  obtain ⟨⟨⟩, hcheck, hmade⟩ := h
  rw [stairs, List.foldlM_map]
  exact ⟨hcheck, hmade⟩

theorem gains_makeFolders (h : tree.makeFolders p = .ok after) : Gains tree after [] :=
  gains_foldlM_ensureFolder (makeFolders_eq_ok h).2

theorem exists_located_of_makeFolders (h : tree.makeFolders p = .ok after) :
    ∃ here, Located after p here := by
  obtain ⟨hcheck, hmade⟩ := makeFolders_eq_ok h
  by_cases hp : p.parts = []
  · refine ⟨⟨if p.root.isEmpty then "" else "/", []⟩, ?_, rfl⟩
    rw [resolve, hcheck, hp]
    rfl
  -- The folder that is made last is the path itself.
  · obtain ⟨ps, hps⟩ := exists_stairs_eq hp
    rw [hps, List.foldlM_append, Except.bind_eq_ok_iff] at hmade
    obtain ⟨middle, -, hlast⟩ := hmade
    rw [List.foldlM_cons, Except.bind_eq_ok_iff] at hlast
    obtain ⟨last, hensured, hlast⟩ := hlast
    obtain rfl := Except.ok.inj hlast
    exact (ensureFolder_eq_ok hensured).2

end Folders

end MaxEnt.FileTree
