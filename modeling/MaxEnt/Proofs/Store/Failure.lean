import MaxEnt.Proofs.Codec.Stopping
import MaxEnt.Proofs.Store.History

namespace MaxEnt

theorem Model.exists_write_of_save {m : Model Binary64} {files after : FileTree} {p : Path}
    {plainText : Bool} {fault : Option WriteError}
    (h : m.save files p plainText = .ok (after, fault)) :
    ∃ content, files.write p content = .ok after := by
  rw [Model.save, Except.bind_eq_ok_iff] at h
  obtain ⟨written, hwrite, hresult⟩ := h
  cases hresult
  exact ⟨_, hwrite⟩

namespace Saving

variable {c : Saving} {s : ModelStore}

def path (c : Saving) (s : ModelStore) : Path := s.modelPath c.name c.version c.time.text

def raised? (c : Saving) (s : ModelStore) : Option ModelStore.SaveError :=
  match c.model.model.save s.files (c.path s) (c.path s).isPlainText with
  | .error e => some (.file e)
  | .ok (_, fault) => fault.map .model

theorem writeModel_of_raised {e : ModelStore.SaveError}
    (hfree : ∀ content, s.files.read (c.path s) ≠ .ok content) (h : c.raised? s = some e) :
    ModelStore.writeModel s.files (c.path s) c.model.model = (.error e, s.files) := by
  unfold raised? at h
  unfold ModelStore.writeModel
  -- The result is kept apart, so that nothing evaluates it.
  generalize hsave : c.model.model.save s.files (c.path s) (c.path s).isPlainText = result at h ⊢
  rcases result with cause | ⟨after, none | cause⟩
  · cases h
    rfl
  · cases h
  -- The file that was begun is the only thing that has changed, and is removed.
  · obtain ⟨content, hwrite⟩ := Model.exists_write_of_save hsave
    cases h
    simp only [FileTree.remove_write hfree hwrite]
    rfl

theorem output_ne_none {t : Text} (hmem : t ∈ c.model.model.labels ++
    c.model.model.groups.map (·.token) ++ c.model.model.predicates.keys)
    (hlong : ¬ Binary.FitsString t) : c.output.2 ≠ none := by
  intro hnone
  have hfits : c.model.model.FitsBinary := Binary.complete_iff_fitsBinary.1 hnone
  rw [List.mem_append, List.mem_append] at hmem
  rcases hmem with (hlabel | htoken) | hname
  · exact hlong (hfits.labels t hlabel)
  · obtain ⟨g, hg, rfl⟩ := List.mem_map.1 htoken
    exact hlong (hfits.tokens g hg)
  · exact hlong (hfits.names t hname)

theorem exists_raised (hc : c.Plain) (h : c.output.2 ≠ none) : ∃ e, c.raised? s = some e := by
  obtain ⟨fault, hfault⟩ := Option.ne_none_iff_exists'.1 h
  have hpath : c.path s = s.folder.child c.modelFile := modelPath_eq hc s
  unfold raised?
  rewrite [hpath, save_modelFile, hfault]
  generalize s.files.write (s.folder.child c.modelFile) ⟨c.output.1.written, false⟩ = result
  rcases result with cause | after
  · exact ⟨.file cause, rfl⟩
  · exact ⟨.model fault, rfl⟩

/-- A call whose model cannot be written gives the reason and leaves the store as it was, so that
every lookup finds what it found before. A text that is too long is such a reason. -/
theorem run_of_raised (hc : c.Plain) (hfree : ∀ content, s.files.read (c.path s) ≠ .ok content) :
    (∀ e, c.raised? s = some e → c.run s = (.error e, s) ∧
      (∀ name version, (c.run s).2.latest? name version = s.latest? name version) ∧
      ∀ p, (c.run s).2.load p = s.load p) ∧
    ∀ t ∈ c.model.model.labels ++ c.model.model.groups.map (·.token) ++
        c.model.model.predicates.keys,
      ¬ Binary.FitsString t → ∃ e, c.raised? s = some e := by
  refine ⟨fun e he => ?_, fun t hmem hlong => exists_raised hc (output_ne_none hmem hlong)⟩
  have hrun : c.run s = (.error e, s) := run_of_writeModel_error (writeModel_of_raised hfree he)
  exact ⟨hrun, fun name version => by rw [hrun], fun p => by rw [hrun]⟩

def stocked : ModelStore :=
  ⟨⟨.ofList [(⟨"", ["models"]⟩, .folder),
    (⟨"", ["models", "m_v1_20231231_235959_000000.bin"]⟩, .file ⟨[0], false⟩)]⟩, .ofText "models"⟩

def longTrial : Saving := { ModelStore.bareTrial with model := ⟨longModel, .empty⟩ }

theorem modelFile_longTrial : longTrial.modelFile = ↑ "m_v1_20240102_030405_000001.bin" := by
  have htrial : longTrial.modelFile = ModelStore.bareTrial.modelFile := rfl
  rw [htrial]
  cbv

theorem run_of_raised_longTrial :
    longTrial.Plain ∧ (∀ content, stocked.files.read (longTrial.path stocked) ≠ .ok content) ∧
      ∃ e, longTrial.raised? stocked = some e ∧ longTrial.run stocked = (.error e, stocked) ∧
        (longTrial.run stocked).2.latest? "m" "v1" =
          .ok (some (stocked.folder.child "m_v1_20231231_235959_000000.bin")) := by
  have hplain : longTrial.Plain := ⟨(by decide : PlainName "m"), (by decide : PlainName "v1")⟩
  have hmissing : stocked.files.read (longTrial.path stocked) = .error .missing := by
    have hpath : longTrial.path stocked = stocked.folder.child longTrial.modelFile :=
      modelPath_eq hplain stocked
    rw [hpath, modelFile_longTrial]
    decide +kernel
  have hfree : ∀ content, stocked.files.read (longTrial.path stocked) ≠ .ok content := by
    intro content hread
    rw [hmissing] at hread
    cases hread
  have hlong : longText ∈ longTrial.model.model.labels ++
      longTrial.model.model.groups.map (·.token) ++ longTrial.model.model.predicates.keys :=
    List.mem_append_left _ (List.mem_append_left _ (List.mem_cons_of_mem _ List.mem_cons_self))
  have hlatest : stocked.latest? "m" "v1" =
      .ok (some (stocked.folder.child "m_v1_20231231_235959_000000.bin")) := by
    decide +kernel
  obtain ⟨hleaves, hraised⟩ := run_of_raised hplain hfree
  obtain ⟨e, he⟩ := hraised longText hlong not_fitsString_longText
  obtain ⟨hrun, hsame, -⟩ := hleaves e he
  exact ⟨hplain, hfree, e, he, hrun, (hsame "m" "v1").trans hlatest⟩

end Saving

end MaxEnt
