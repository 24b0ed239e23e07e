import MaxEnt.Proofs.Files.Gains
import MaxEnt.Proofs.Store.Loading

namespace MaxEnt

namespace ModelStore

def modelName (name version time : Text) : Text := stamp name version time ++ ↑ ".bin"

def metadataName (name version time : Text) : Text := stamp name version time ++ ↑ "_metadata.json"

/-- Both files of a model can stand in the folder under their names, and nothing has these yet. -/
structure HasRoom (s : ModelStore) (name version time : Text) : Prop where
  admits_model : FileTree.Admits s.folder (modelName name version time)
  admits_metadata : FileTree.Admits s.folder (metadataName name version time)
  model_not_mem : modelName name version time ∉ s.files.names s.folder
  metadata_not_mem : metadataName name version time ∉ s.files.names s.folder

end ModelStore

namespace Saving

open FileTree

variable {c : Saving} {s : ModelStore} {here : Path}

theorem node?_of_not_mem_names {t : Text} (hs : Located s.files s.folder here)
    (h : t ∉ s.files.names s.folder) : s.files.node? (here.child t) = none := by
  rw [mem_names hs, Option.not_isSome_iff_eq_none] at h
  exact h

theorem written_of_complete (h : c.output.2 = none) : c.model.model.FitsBinary ∧
    c.output.1.written = c.model.model.fields.flatMap Binary.bytes := by
  rw [output] at h ⊢
  generalize hresult : (Output.writer Binary.encode true).persist c.model.model .empty = result at h ⊢
  obtain ⟨output, fault⟩ := result
  obtain rfl : fault = none := h
  exact Binary.written_of_persist hresult

theorem run_of_fault {e : WriteError} (hc : c.Plain) (hs : Located s.files s.folder here)
    (hadmits : Admits s.folder c.modelFile)
    (hfree : s.files.node? (here.child c.modelFile) ≠ some .folder) (hfault : c.output.2 = some e) :
    c.run s = (.error (.model e), { s with
      files := ⟨(s.files.put (here.child c.modelFile) ⟨c.output.1.written, false⟩).nodes.erase
        (here.child c.modelFile)⟩ }) := by
  have hput := hs.put hfree ⟨c.output.1.written, false⟩
  have hsave : c.model.model.save s.files (s.folder.child c.modelFile)
      (s.folder.child c.modelFile).isPlainText =
        .ok (s.files.put (here.child c.modelFile) ⟨c.output.1.written, false⟩, some e) := by
    rw [save_modelFile, write_child_eq_ok hs hadmits hfree, ← hfault]
    rfl
  -- What was written so far stands under the name, so that it can be removed.
  have hstands := node?_put s.files here c.modelFile ⟨c.output.1.written, false⟩
    (here.child c.modelFile)
  rw [if_pos rfl] at hstands
  have hremove := remove_child hput hadmits hstands
  have hwrite : ModelStore.writeModel s.files (s.folder.child c.modelFile) c.model.model =
      (.error (.model e), ⟨(s.files.put (here.child c.modelFile)
        ⟨c.output.1.written, false⟩).nodes.erase (here.child c.modelFile)⟩) := by
    simp only [ModelStore.writeModel, hsave, hremove]
    rfl
  rw [← modelPath_eq hc] at hwrite
  exact run_of_writeModel_error hwrite

inductive Ends (c : Saving) (here : Path) (s : ModelStore) :
    Except ModelStore.SaveError Path × ModelStore → Prop where
  | complete {after : FileTree} (fits : c.model.model.FitsBinary)
    (gains : Gains s.files after [here.child c.modelFile, here.child c.metadataFile])
    (model : after.node? (here.child c.modelFile) =
      some (.file ⟨c.model.model.fields.flatMap Binary.bytes, false⟩)) :
    c.Ends here s (.ok (s.folder.child c.modelFile), { s with files := after })
  | refused {after : FileTree} (e : WriteError) (unfit : ¬ c.model.model.FitsBinary)
    (gains : Gains s.files after []) :
    c.Ends here s (.error (.model e), { s with files := after })

theorem ends_run (hc : c.Plain) (hs : Located s.files s.folder here)
    (hroom : s.HasRoom c.name c.version c.time.text) : c.Ends here s (c.run s) := by
  have hmodel : s.files.node? (here.child c.modelFile) = none :=
    node?_of_not_mem_names hs hroom.model_not_mem
  have hmetadata : s.files.node? (here.child c.metadataFile) = none :=
    node?_of_not_mem_names hs hroom.metadata_not_mem
  cases hfault : c.output.2 with
  | some e =>
    have hunfit : ¬ c.model.model.FitsBinary := by
      intro hfits
      rw [complete_of_fits hfits] at hfault
      cases hfault
    rw [run_of_fault hc hs hroom.admits_model (by simp [hmodel]) hfault]
    exact .refused e hunfit (gains_erase_put hmodel _)
  | none =>
    have hfeasible : c.Feasible s.folder := ⟨hfault, hroom.admits_model, hroom.admits_metadata⟩
    have hne : ¬ here.child c.metadataFile = here.child c.modelFile :=
      mt Path.child_inj.1 (c.modelFile_ne_metadataFile c).symm
    have hafter : (s.files.put (here.child c.modelFile) ⟨c.output.1.written, false⟩).node?
        (here.child c.metadataFile) = none := by
      rw [node?_put, if_neg hne, hmetadata]
    obtain ⟨hfits, hwritten⟩ := written_of_complete hfault
    rw [run_of_feasible hc hs hfeasible (by simp [hmodel]) (by simp [hmetadata])]
    refine .complete hfits ((gains_put hmodel _).trans (gains_put hafter _)) ?_
    rw [node?_put, if_neg (Ne.symm hne), node?_put, if_pos rfl, hwritten]

end Saving

end MaxEnt
