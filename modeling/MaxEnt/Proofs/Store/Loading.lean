import MaxEnt.Proofs.Store.History
import MaxEnt.Proofs.Store.Metadata

namespace MaxEnt

namespace Model

theorem load_eq_ok {files : FileTree} {p : Path} {bytes rest : List UInt8} {m : Model Binary64}
    (hread : files.read p = .ok ⟨bytes, false⟩) (hcompressed : p.isCompressed = false)
    (hplain : p.isPlainText = false) (hrun : Binary.reader.model.run bytes = (.ok m, rest)) :
    load files p = .ok m := by
  have hfile : ofFile p ⟨bytes, false⟩ = .ok m := by
    have hrun' : (Binary.reader.model.run bytes).run.1 = .ok m := congrArg Prod.fst hrun
    simp [ofFile, File.content, hcompressed, hplain, ofContent, hrun']
  rw [load, hread]
  exact congrArg (Except.mapError LoadError.data) hfile

end Model

namespace ModelStore

open FileTree

variable {start s : ModelStore} {here p : Path} {h : List (Saving × Path)} {c : Saving}

theorem loadMetadata_eq_ok {files : FileTree} {bytes : List UInt8} {j : Json}
    (hcontains : files.contains (metadataOf p) = .ok true)
    (hread : files.read (metadataOf p) = .ok ⟨bytes, false⟩) (hj : Metadata.ofBytes bytes = .ok j) :
    loadMetadata files p = .ok j := by
  rw [loadMetadata, hcontains, hread]
  exact congrArg (Except.mapError LoadError.metadata) hj

theorem load_eq_ok {m : Model Binary64} {j : Json} {report : Table Text Json}
    (hcontains : s.files.contains p = .ok true) (hmodel : Model.load s.files p = .ok m)
    (hmetadata : loadMetadata s.files p = .ok j) (hreport : Metadata.report j = .ok report) :
    s.load p = .ok (⟨m, report⟩, j) := by
  rw [load, hcontains, hmodel, hmetadata]
  change ((Metadata.report j).mapError LoadError.metadata >>= fun report =>
    pure ((⟨m, report⟩ : ReportedModel), j)) = _
  rw [hreport]
  rfl

theorem metadataOf_modelFile (c : Saving) (folder : Path) :
    metadataOf (folder.child c.modelFile) = folder.child c.metadataFile := by
  rw [metadataOf, Path.stem, Path.name_child, c.cutName_modelFile, Path.withName_child]
  rfl

theorem load_of_stands (hs : Located s.files s.folder here) (hstands : Stands c s.folder here s)
    (hplain : c.Plain) (hc : c.Keepable) :
    ∃ n, s.load (s.folder.child c.modelFile) = .ok (⟨n, c.model.report⟩, .ofTable c.metadata) ∧
      n.labels = c.model.model.labels ∧
      ∀ name, n.predicates.get? name = c.model.model.predicates.get? name := by
  obtain ⟨hfeasible, hmodel, hmetadata⟩ := hstands
  have hwritten : c.output.1.written = c.model.model.fields.flatMap Binary.bytes :=
    Output.written_persist_of_ok (fun f hf => Binary.encode_of_fits (hc.fits.fields f hf)) true
  rw [hwritten] at hmodel
  obtain ⟨n, hrun, hn⟩ := hc.fits.run_bytes hc.unpaired []
  rw [List.append_nil] at hrun
  have hload := Model.load_eq_ok (read_child hs hfeasible.admits_model hmodel)
    (c.isCompressed_modelFile s.folder) (c.isPlainText_modelFile s.folder) hrun
  have hloadMetadata :
      loadMetadata s.files (s.folder.child c.modelFile) = .ok (.ofTable c.metadata) := by
    have hcontains := contains_child hs hfeasible.admits_metadata hmetadata
    have hread := read_child hs hfeasible.admits_metadata hmetadata
    rw [← metadataOf_modelFile] at hcontains hread
    exact loadMetadata_eq_ok hcontains hread (Metadata.ofBytes_bytes (c.readable_metadata hplain hc))
  exact ⟨n, load_eq_ok (contains_child hs hfeasible.admits_model hmodel) hload hloadMetadata
    (Saving.report_metadata hc), hn⟩

/-- After any number of calls, what each of them saved is loaded: the same labels, under every name
the same outcomes and parameters, bit for bit, the same report, and as metadata the eight entries of
the store under those that the caller gave. -/
theorem load_saved (hfresh : start.Fresh) (hplain : ∀ e ∈ h, e.1.Plain) (hrun : History start h s)
    (htimes : h.Pairwise fun d e => d.1.time ≠ e.1.time) (hkeepable : ∀ e ∈ h, e.1.Keepable) :
    ∀ e ∈ h, ∃ n, s.load e.2 = .ok (⟨n, e.1.model.report⟩, .ofTable e.1.metadata) ∧
      n.labels = e.1.model.model.labels ∧
      (∀ name, n.predicates.get? name = e.1.model.model.predicates.get? name) ∧
      e.1.standard.size = 8 ∧
      ∀ key, e.1.metadata.get? key = (e.1.entries.get? key).or (e.1.standard.get? key) := by
  obtain ⟨here, hs, hstands⟩ := hrun.stands hfresh hplain htimes
  rw [← hs.folder] at hstands
  intro e he
  obtain ⟨n, hload, hlabels, hpredicates⟩ :=
    load_of_stands hs.located (hstands e he) (hplain e he) (hkeepable e he)
  have hsize : e.1.standard.size = 8 := congrArg List.length e.1.entries_standard
  rw [hs.folder, ← hs.path e he] at hload
  exact ⟨n, hload, hlabels, hpredicates, hsize, e.1.get?_metadata⟩

theorem keepable_trial (version : Text) (microsecond : Fin 10) :
    (trial version microsecond).Keepable where
  fits := Binary.fitsBinary_mixedModel
  unpaired := (by decide : Binary.mixedModel.Unpaired)
  report := by
    have hentries : (trial version microsecond).model.report.entries = [(↑ "rounds", .int 7)] := rfl
    rw [Json.readable_ofTable_iff, hentries, List.forall_mem_singleton]
    exact ⟨by decide, by decide, Json.readable_length (by decide)⟩
  entries := by
    have hentries : (trial version microsecond).entries.entries =
        [(↑ "name", .string "best"), (↑ "tags", .array [.null, .bool true])] := rfl
    rw [Json.readable_ofTable_iff, hentries, List.forall_mem_cons, List.forall_mem_singleton]
    simp only [Json.Readable, Json.ReadableItems, and_true]
    decide
  report_not_mem := by
    have hkeys : (trial version microsecond).entries.keys = [↑ "name", ↑ "tags"] := rfl
    rw [hkeys]
    decide

theorem load_saved_trialed :
    ∃ s, blank.Fresh ∧ (∀ e ∈ trialed 4, e.1.Plain) ∧ History blank (trialed 4) s ∧
      ((trialed 4).Pairwise fun d e => d.1.time ≠ e.1.time) ∧ (∀ e ∈ trialed 4, e.1.Keepable) ∧
      ∀ e ∈ trialed 4, ∃ n, s.load e.2 = .ok (⟨n, e.1.model.report⟩, .ofTable e.1.metadata) ∧
        n.labels = e.1.model.model.labels ∧
        (∀ name, n.predicates.get? name = e.1.model.model.predicates.get? name) ∧
        e.1.standard.size = 8 ∧
        ∀ key, e.1.metadata.get? key = (e.1.entries.get? key).or (e.1.standard.get? key) := by
  obtain ⟨s, hrun⟩ := exists_history_trialed 4
  have hplain : ∀ e ∈ trialed 4, e.1.Plain := fun e he => plain_trials _ (mem_trials he)
  have htimes : (trialed 4).Pairwise fun d e => d.1.time ≠ e.1.time :=
    (pairwise_trialed 4).imp Moment.ne_of_lt
  have hkeepable : ∀ e ∈ trialed 4, e.1.Keepable := by
    intro e he
    have htrial := mem_trials he
    simp only [trials, List.mem_cons, List.not_mem_nil, or_false] at htrial
    rcases htrial with h | h | h | h <;> rw [h] <;> exact keepable_trial _ _
  exact ⟨s, fresh_blank, hplain, hrun, htimes, hkeepable,
    load_saved fresh_blank hplain hrun htimes hkeepable⟩

/-- The store puts no ninth entry into the metadata. -/
theorem load_saved_bareTrial :
    ∃ s n fields, blank.Fresh ∧ bareTrial.Plain ∧ bareTrial.Keepable ∧
      History blank [(bareTrial, blank.folder.child bareTrial.modelFile)] s ∧
      bareTrial.entries.size = 0 ∧
      s.load (blank.folder.child bareTrial.modelFile) =
        .ok (⟨n, bareTrial.model.report⟩, .object fields) ∧ fields.length ≠ 9 := by
  have hfirst : trial "v1" 1 ∈ trials := by simp [trials]
  have hplain : bareTrial.Plain := ⟨(plain_trials _ hfirst).name, (plain_trials _ hfirst).version⟩
  have hfeasible : bareTrial.Feasible blank.folder :=
    ⟨Saving.complete_of_fits Binary.fitsBinary_mixedModel, (feasible_trials _ hfirst).admits_model,
      (feasible_trials _ hfirst).admits_metadata⟩
  have hkeepable : bareTrial.Keepable := by
    obtain ⟨hfits, hunpaired, hreport, -, -⟩ := keepable_trial "v1" 1
    refine ⟨hfits, hunpaired, hreport, Json.readable_ofTable_iff.2 ⟨by decide, ?_⟩, ?_⟩
    · exact fun f hf => absurd hf List.not_mem_nil
    · exact List.not_mem_nil
  have hcalls : ∀ c ∈ [bareTrial], c.Plain ∧ c.Feasible blank.folder :=
    List.forall_mem_singleton.2 ⟨hplain, hfeasible⟩
  obtain ⟨s, hrun⟩ := exists_history fresh_blank hcalls
  obtain ⟨here, hs, hstands⟩ := hrun.stands fresh_blank
    (List.forall_mem_singleton.2 hplain) (List.pairwise_singleton _ _)
  have hstands' := hstands _ (List.mem_singleton_self _)
  rw [← hs.folder] at hstands'
  obtain ⟨n, hload, -⟩ := load_of_stands hs.located hstands' hplain hkeepable
  rw [hs.folder] at hload
  have hmetadata : bareTrial.metadata.entries.length = 8 :=
    congrArg List.length bareTrial.entries_standard
  exact ⟨s, n, bareTrial.metadata.entries, fresh_blank, hplain, hkeepable, hrun, rfl, hload,
    by rw [hmetadata]; decide⟩

end ModelStore

end MaxEnt
