import MaxEnt.Proofs.Codec.RoundTrip
import MaxEnt.Proofs.Store.Saving

namespace MaxEnt

theorem Model.toFile_binary (m : Model Binary64) (p : Path) :
    m.toFile p false = (⟨((Output.writer Binary.encode true).persist m .empty).1.written,
      p.isCompressed⟩, ((Output.writer Binary.encode true).persist m .empty).2) := by
  rewrite [Model.toFile, if_neg Bool.false_ne_true]
  -- The result is kept apart, so that nothing evaluates it.
  generalize (Output.writer Binary.encode true).persist m .empty = result
  obtain ⟨output, fault⟩ := result
  rfl

namespace Saving

open FileTree

def run (c : Saving) (s : ModelStore) : Except ModelStore.SaveError Path × ModelStore :=
  s.save c.model c.name c.version c.time.text c.entries

variable {c : Saving} {s t : ModelStore} {here p : Path}

theorem modelPath_eq (h : c.Plain) (s : ModelStore) :
    s.modelPath c.name c.version c.time.text = s.folder.child c.modelFile :=
  join_stamp h (by decide : PlainName ".bin") s.folder

theorem metadataPath_eq (h : c.Plain) (s : ModelStore) :
    s.metadataPath c.name c.version c.time.text = s.folder.child c.metadataFile :=
  join_stamp h (by decide : PlainName "_metadata.json") s.folder

theorem save_modelFile (c : Saving) (files : FileTree) (folder : Path) :
    c.model.model.save files (folder.child c.modelFile) (folder.child c.modelFile).isPlainText =
      files.write (folder.child c.modelFile) ⟨c.output.1.written, false⟩ >>=
        fun files => pure (files, c.output.2) := by
  have hfile := c.model.model.toFile_binary (folder.child c.modelFile)
  rw [isCompressed_modelFile] at hfile
  rewrite [isPlainText_modelFile, Model.save, hfile, output]
  generalize (Output.writer Binary.encode true).persist c.model.model .empty = result
  rfl

theorem run_of_writeModel_error {e : ModelStore.SaveError} {files : FileTree}
    (h : ModelStore.writeModel s.files (s.modelPath c.name c.version c.time.text) c.model.model =
      (.error e, files)) : c.run s = (.error e, { s with files }) := by
  unfold run ModelStore.save
  simp only [h]

/-- The model can be written in full, and both files can stand in the folder. -/
structure Feasible (c : Saving) (folder : Path) : Prop where
  complete : c.output.2 = none
  admits_model : Admits folder c.modelFile
  admits_metadata : Admits folder c.metadataFile

theorem complete_of_fits (h : c.model.model.FitsBinary) : c.output.2 = none :=
  Binary.complete_iff_fitsBinary.2 h

/-- What a successful save does: both files stand in the folder, and nothing else in it has
changed. -/
structure Saved (c : Saving) (here : Path) (s t : ModelStore) (p : Path) : Prop where
  feasible : c.Feasible s.folder
  path : p = s.folder.child c.modelFile
  folder : t.folder = s.folder
  located : Located t.files t.folder here
  node? : ∀ u, t.files.node? (here.child u) =
    if u = c.metadataFile then some (.file ⟨Metadata.bytes c.metadata, false⟩)
    else if u = c.modelFile then some (.file ⟨c.output.1.written, false⟩)
    else s.files.node? (here.child u)

theorem writeModel_eq_ok_iff {files after : FileTree} {m : Model Binary64} :
    ModelStore.writeModel files p m = (.ok (), after) ↔
      m.save files p p.isPlainText = .ok (after, none) := by
  unfold ModelStore.writeModel
  split
  · simp [*]
  · simp [*]
  · simp [*]

theorem saved_of_run (hc : c.Plain) (hs : Located s.files s.folder here) (h : c.run s = (.ok p, t)) :
    c.Saved here s t p := by
  unfold run ModelStore.save at h
  rw [modelPath_eq hc, metadataPath_eq hc] at h
  simp only at h
  split at h
  · cases h
  · rename_i files hmodel
    rw [writeModel_eq_ok_iff, save_modelFile, Except.bind_eq_ok_iff] at hmodel
    obtain ⟨files', hwrite, hfiles⟩ := hmodel
    simp only [pure, Except.pure, Except.ok.injEq, Prod.mk.injEq] at hfiles
    obtain ⟨rfl, hcomplete⟩ := hfiles
    obtain ⟨hadmits, hfree, rfl⟩ := write_child hs c.modelFile_ne_up hwrite
    have hs' := hs.put hfree ⟨c.output.1.written, false⟩
    split at h
    · cases h
    · rename_i after hmetadata
      cases h
      obtain ⟨hadmits', hfree', rfl⟩ := write_child hs' c.metadataFile_ne_up hmetadata
      refine ⟨⟨hcomplete, hadmits, hadmits'⟩, rfl, rfl, hs'.put hfree' _, fun u => ?_⟩
      rw [node?_put, node?_put]
      simp only [Path.child_inj, metadata]

theorem run_of_feasible (hc : c.Plain) (hs : Located s.files s.folder here)
    (hfeasible : c.Feasible s.folder) (hmodel : s.files.node? (here.child c.modelFile) ≠ some .folder)
    (hmetadata : s.files.node? (here.child c.metadataFile) ≠ some .folder) :
    c.run s = (.ok (s.folder.child c.modelFile), { s with
      files := (s.files.put (here.child c.modelFile) ⟨c.output.1.written, false⟩).put
        (here.child c.metadataFile) ⟨Metadata.bytes c.metadata, false⟩ }) := by
  have hput := hs.put hmodel ⟨c.output.1.written, false⟩
  have hfree : (s.files.put (here.child c.modelFile) ⟨c.output.1.written, false⟩).node?
      (here.child c.metadataFile) ≠ some .folder := by
    rw [node?_put]
    split
    · simp
    · exact hmetadata
  have hfirst := write_child_eq_ok hs hfeasible.admits_model hmodel ⟨c.output.1.written, false⟩
  have hsecond := write_child_eq_ok hput hfeasible.admits_metadata hfree
    ⟨Metadata.bytes c.metadata, false⟩
  have hwrite : ModelStore.writeModel s.files (s.folder.child c.modelFile) c.model.model =
      (.ok (), s.files.put (here.child c.modelFile) ⟨c.output.1.written, false⟩) := by
    rw [writeModel_eq_ok_iff, save_modelFile, hfirst, hfeasible.complete]
    rfl
  rw [metadata] at hsecond ⊢
  unfold run ModelStore.save
  rw [modelPath_eq hc, metadataPath_eq hc]
  simp only [hwrite, hsecond]

theorem metadataFile_ne_append (c : Saving) (t : Text) :
    c.metadataFile ≠ t ++ Text.ofString ".bin" := by
  -- The last four letters differ.
  intro h
  have hends : (c.stamp ++ ↑ "_metadata.") ++ Text.ofString "json" = t ++ Text.ofString ".bin" := by
    rw [List.append_assoc]
    exact h
  exact absurd (List.append_inj_right' hends rfl) (by decide)

theorem modelFile_ne_metadataFile (c d : Saving) : c.modelFile ≠ d.metadataFile :=
  (d.metadataFile_ne_append c.stamp).symm

/-- One stamp is of one time, since all times take as many digits. -/
theorem time_eq_of_stamp_eq {c d : Saving} (h : c.stamp = d.stamp) : c.time = d.time := by
  rw [stamp, stamp, ModelStore.stamp_eq, ModelStore.stamp_eq] at h
  exact Moment.text_injective
    (List.append_inj_right' h (c.time.length_text.trans d.time.length_text.symm))

end Saving

namespace ModelStore

open FileTree

structure Fresh (s : ModelStore) : Prop where
  isFolder : s.files.isFolder s.folder = true
  names : s.files.names s.folder = []

/-- Calls that saved a model, in order, with the path that each gave, and the store after them. -/
inductive History (start : ModelStore) : List (Saving × Path) → ModelStore → Prop where
  | nil : History start [] start
  | snoc {h : List (Saving × Path)} {s t : ModelStore} {c : Saving} {p : Path} :
    History start h s → c.run s = (.ok p, t) → History start (h ++ [(c, p)]) t

structure Holds (start : ModelStore) (here : Path) (h : List (Saving × Path)) (s : ModelStore) :
    Prop where
  folder : s.folder = start.folder
  located : Located s.files s.folder here
  free : ∀ t, s.files.node? (here.child t) ≠ some .folder
  path : ∀ e ∈ h, e.2 = start.folder.child e.1.modelFile
  present : ∀ t, (s.files.node? (here.child t)).isSome = true ↔
    ∃ e ∈ h, t = e.1.modelFile ∨ t = e.1.metadataFile

structure Stands (c : Saving) (folder here : Path) (s : ModelStore) : Prop where
  feasible : c.Feasible folder
  model : s.files.node? (here.child c.modelFile) = some (.file ⟨c.output.1.written, false⟩)
  metadata : s.files.node? (here.child c.metadataFile) =
    some (.file ⟨Metadata.bytes c.metadata, false⟩)

variable {start s t : ModelStore} {here p : Path} {h : List (Saving × Path)} {c d : Saving}

theorem Fresh.holds (hfresh : start.Fresh) : ∃ here, Holds start here [] start := by
  obtain ⟨here, hlocated⟩ := exists_located hfresh.isFolder
  have hnone : ∀ t, start.files.node? (here.child t) = none := by
    intro t
    rw [← Option.not_isSome_iff_eq_none, ← mem_names hlocated, hfresh.names]
    exact List.not_mem_nil
  exact ⟨here, rfl, hlocated, fun t => by simp [hnone t], by simp, fun t => by simp [hnone t]⟩

theorem Holds.snoc (hs : Holds start here h s) (hc : c.Saved here s t p) :
    Holds start here (h ++ [(c, p)]) t where
  folder := hc.folder.trans hs.folder
  located := hc.located
  free u := by
    rw [hc.node?]
    split
    · simp
    · split
      · simp
      · exact hs.free u
  path := by
    refine List.forall_mem_append.2 ⟨hs.path, ?_⟩
    rw [List.forall_mem_singleton, hc.path, hs.folder]
  present u := by
    rw [hc.node?]
    have hold := hs.present u
    split
    · simp [*]
    · split
      · simp [*]
      · simp [*, or_and_right, exists_or]

theorem stands_of_saved (hc : c.Saved here s t p) : Stands c s.folder here t where
  feasible := hc.feasible
  model := by
    rw [hc.node?, if_neg (c.modelFile_ne_metadataFile c), if_pos rfl]
  metadata := by rw [hc.node?, if_pos rfl]

theorem Stands.of_saved (hd : Stands d s.folder here s) (hc : c.Saved here s t p)
    (htime : d.time ≠ c.time) : Stands d s.folder here t := by
  have hstamp : d.stamp ≠ c.stamp := mt Saving.time_eq_of_stamp_eq htime
  have hmodel : d.modelFile ≠ c.modelFile := mt List.append_cancel_right hstamp
  have hmetadata : d.metadataFile ≠ c.metadataFile := mt List.append_cancel_right hstamp
  refine ⟨hd.feasible, ?_, ?_⟩
  · rw [hc.node?, if_neg (d.modelFile_ne_metadataFile c), if_neg hmodel, hd.model]
  · rw [hc.node?, if_neg hmetadata, if_neg (c.modelFile_ne_metadataFile d).symm, hd.metadata]

theorem History.holds (hrun : History start h s) (hfresh : start.Fresh)
    (hplain : ∀ e ∈ h, e.1.Plain) : ∃ here, Holds start here h s := by
  induction hrun with
  | nil => exact hfresh.holds
  | snoc _ hc ih =>
    rw [List.forall_mem_append, List.forall_mem_singleton] at hplain
    obtain ⟨here, hs⟩ := ih hplain.1
    exact ⟨here, hs.snoc (Saving.saved_of_run hplain.2 hs.located hc)⟩

theorem History.stands (hrun : History start h s) (hfresh : start.Fresh)
    (hplain : ∀ e ∈ h, e.1.Plain) (htimes : h.Pairwise fun d e => d.1.time ≠ e.1.time) :
    ∃ here, Holds start here h s ∧ ∀ e ∈ h, Stands e.1 start.folder here s := by
  induction hrun with
  | nil =>
    obtain ⟨here, hs⟩ := hfresh.holds
    exact ⟨here, hs, by simp⟩
  | snoc _ hc ih =>
    rw [List.forall_mem_append, List.forall_mem_singleton] at hplain
    rw [List.pairwise_append] at htimes
    obtain ⟨here, hs, hstands⟩ := ih hplain.1 htimes.1
    have hsaved := Saving.saved_of_run hplain.2 hs.located hc
    refine ⟨here, hs.snoc hsaved, List.forall_mem_append.2 ⟨fun e he => ?_, ?_⟩⟩
    -- The new files have other names than those that stand there.
    · have hkept := hstands e he
      rw [← hs.folder] at hkept ⊢
      exact hkept.of_saved hsaved (htimes.2.2 e he _ (List.mem_singleton_self _))
    · rw [List.forall_mem_singleton, ← hs.folder]
      exact stands_of_saved hsaved

theorem exists_history {cs : List Saving} (hfresh : start.Fresh)
    (hcalls : ∀ c ∈ cs, c.Plain ∧ c.Feasible start.folder) :
    ∃ s, History start (cs.map fun c => (c, start.folder.child c.modelFile)) s := by
  induction cs using List.reverseRecOn with
  | nil => exact ⟨start, .nil⟩
  | append_singleton cs c ih =>
    rw [List.forall_mem_append, List.forall_mem_singleton] at hcalls
    obtain ⟨hold, hplain, hfeasible⟩ := hcalls
    obtain ⟨s, hrun⟩ := ih hold
    obtain ⟨here, hs⟩ := hrun.holds hfresh (by simpa using fun c hc => (hold c hc).1)
    rw [← hs.folder] at hfeasible
    have hc := Saving.run_of_feasible hplain hs.located hfeasible (hs.free _) (hs.free _)
    rw [hs.folder] at hc
    rw [List.map_append]
    exact ⟨_, hrun.snoc hc⟩

def blank : ModelStore := ⟨.empty, ⟨[], []⟩⟩

theorem fresh_blank : blank.Fresh := ⟨by decide, by decide⟩

/-- A call whose caller gives another name in the metadata. -/
def trial (version : Text) (microsecond : Fin 10) : Saving where
  model := ⟨Binary.mixedModel, .ofList [("rounds", .int 7)]⟩
  name := "m"
  version := version
  time := ⟨2024, 1, 2, 3, 4, 5, microsecond, by decide, by decide, by decide, by decide, by decide,
    by decide, microsecond.isLt.trans (by decide)⟩
  entries := .ofList [("name", .string "best"), ("tags", .array [.null, .bool true])]

/-- Calls under three versions, of which the last begins as the first. -/
def trials : List Saving := [trial "v1" 1, trial "v2" 2, trial "v1" 3, trial "v1_beta" 4]

def bareTrial : Saving := { trial "v1" 1 with entries := .empty }

theorem modelFile_trials : trials.map Saving.modelFile =
    ([↑ "m_v1_20240102_030405_000001.bin", ↑ "m_v2_20240102_030405_000002.bin",
      ↑ "m_v1_20240102_030405_000003.bin",
      ↑ "m_v1_beta_20240102_030405_000004.bin"] : List Text) := by
  cbv

theorem metadataFile_trials : trials.map Saving.metadataFile =
    ([↑ "m_v1_20240102_030405_000001_metadata.json", ↑ "m_v2_20240102_030405_000002_metadata.json",
      ↑ "m_v1_20240102_030405_000003_metadata.json",
      ↑ "m_v1_beta_20240102_030405_000004_metadata.json"] : List Text) := by
  cbv

theorem plain_trials : ∀ c ∈ trials, c.Plain := by
  have hplain : ∀ version microsecond, PlainName version → (trial version microsecond).Plain :=
    fun _ _ h => ⟨(by decide : PlainName "m"), h⟩
  simp only [trials, List.forall_mem_cons, List.not_mem_nil, false_imp_iff, implies_true, and_true]
  exact ⟨hplain _ _ (by decide), hplain _ _ (by decide), hplain _ _ (by decide),
    hplain _ _ (by decide)⟩

theorem feasible_trials : ∀ c ∈ trials, c.Feasible blank.folder := by
  intro c hc
  have hmodel : ∀ t ∈ trials.map Saving.modelFile, Admits blank.folder t := by
    rw [modelFile_trials]
    decide +kernel
  have hmetadata : ∀ t ∈ trials.map Saving.metadataFile, Admits blank.folder t := by
    rw [metadataFile_trials]
    decide +kernel
  have hmixed : c.model.model = Binary.mixedModel := by
    simp only [trials, List.mem_cons, List.not_mem_nil, or_false] at hc
    rcases hc with rfl | rfl | rfl | rfl <;> rfl
  exact ⟨Saving.complete_of_fits (hmixed ▸ Binary.fitsBinary_mixedModel),
    hmodel _ (List.mem_map_of_mem hc), hmetadata _ (List.mem_map_of_mem hc)⟩

def trialed (count : Nat) : List (Saving × Path) :=
  (trials.take count).map fun c => (c, blank.folder.child c.modelFile)

theorem mem_trials {count : Nat} {e : Saving × Path} (he : e ∈ trialed count) : e.1 ∈ trials := by
  obtain ⟨c, hc, rfl⟩ := List.mem_map.1 he
  exact List.mem_of_mem_take hc

theorem exists_history_trialed (count : Nat) : ∃ s, History blank (trialed count) s :=
  exists_history fresh_blank fun c hc =>
    ⟨plain_trials c (List.mem_of_mem_take hc), feasible_trials c (List.mem_of_mem_take hc)⟩

theorem pairwise_trialed (count : Nat) : (trialed count).Pairwise fun d e => d.1.time < e.1.time := by
  have htrials : trials.Pairwise fun c d => c.time < d.time := by decide
  exact List.pairwise_map.2 (htrials.sublist (List.take_sublist count trials))

end ModelStore

end MaxEnt
