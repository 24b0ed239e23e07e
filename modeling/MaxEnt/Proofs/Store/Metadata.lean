import MaxEnt.Proofs.Codec.RoundTrip
import MaxEnt.Proofs.Json.Shown
import MaxEnt.Proofs.Store.Saving
import MaxEnt.Proofs.Text.Lines

namespace MaxEnt

namespace Metadata

theorem ofBytes_bytes {t : Table Text Json} (h : (Json.ofTable t).Readable Json.maxDepth) :
    ofBytes (bytes t) = .ok (.ofTable t) := by
  have hshown := Json.shown_indented 0 (.ofTable t)
  obtain ⟨content, hcontent, hdecode⟩ := Utf8.decodeUpToFault_encode hshown.hasSurrogate
  have htext : text? content = some ((Json.ofTable t).indented 0) := by
    rw [text?, hdecode]
    simp only [Text.unifyNewlines_of_not_mem hshown.return_not_mem]
  rw [bytes, hcontent, Option.getD_some, ofBytes, htext]
  simp only [Json.parse_indented h]

theorem report_ofTable {t report : Table Text Json}
    (h : t.get? ↑ "training_report" = some (.ofTable report)) :
    Metadata.report (.ofTable t) = .ok report := by
  have hlookup : t.entries.lookup ↑ "training_report" = some (.ofTable report) := by
    rw [← h, Table.get?]
    congr 1
    exact lawful_beq_subsingleton _ _
  simp only [Json.ofTable, Metadata.report, hlookup]
  exact congrArg Except.ok report.ofList_entries

end Metadata

theorem PlainName.unpaired {t : Text} (h : PlainName t) : ModifiedUtf8.Unpaired t := by
  refine ModifiedUtf8.unpaired_of_forall fun c hc => ?_
  have hsurrogate := (h c hc).2.2.2.2
  rw [CodePoint.isSurrogate, Bool.or_eq_false_iff] at hsurrogate
  exact hsurrogate.1

namespace Saving

/-- What a file can keep: a model within the limits and without pairs of surrogates, a report and
entries that can be told from their text. The entries leave the report alone. -/
structure Keepable (c : Saving) : Prop where
  fits : c.model.model.FitsBinary
  unpaired : c.model.model.Unpaired
  report : (Json.ofTable c.model.report).Readable (Json.maxDepth - 1)
  entries : (Json.ofTable c.entries).Readable Json.maxDepth
  report_not_mem : ↑ "training_report" ∉ c.entries.keys

def standard (c : Saving) : Table Text Json :=
  .ofList (Metadata.standard c.model c.name c.version c.time.text)

variable {c : Saving}

theorem entries_standard (c : Saving) :
    c.standard.entries = Metadata.standard c.model c.name c.version c.time.text := by
  have hkeys : (Metadata.standard c.model c.name c.version c.time.text).map Prod.fst =
      ([↑ "name", ↑ "version", ↑ "timestamp", ↑ "model_type", ↑ "outcome_labels", ↑ "n_outcomes",
        ↑ "n_predicates", ↑ "training_report"] : List Text) := rfl
  refine Table.entries_ofList ?_
  rw [hkeys]
  decide

theorem get?_metadata (c : Saving) (key : Text) :
    c.metadata.get? key = (c.entries.get? key).or (c.standard.get? key) := Table.get?_union _ _ key

theorem readable_standard (hplain : c.Plain) (hc : c.Keepable) :
    ∀ f ∈ c.standard.entries, ModifiedUtf8.Unpaired f.1 ∧ f.2.Readable (Json.maxDepth - 1) := by
  have hstring : ∀ t, ModifiedUtf8.Unpaired t → (Json.string t).Readable (Json.maxDepth - 1) := by
    intro t ht
    rwa [Json.Readable]
  rw [entries_standard]
  simp only [Metadata.standard, List.forall_mem_cons, List.not_mem_nil, false_imp_iff,
    implies_true, and_true]
  exact ⟨⟨by decide, hstring _ hplain.name.unpaired⟩, ⟨by decide, hstring _ hplain.version.unpaired⟩,
    ⟨by decide, hstring _ (PlainName.text c.time).unpaired⟩, ⟨by decide, hstring _ (by decide)⟩,
    ⟨by decide, Json.readable_ofTexts hc.unpaired.1⟩,
    ⟨by decide, Json.readable_length hc.fits.labelCount⟩,
    ⟨by decide, Json.readable_length hc.fits.predicateCount⟩, ⟨by decide, hc.report⟩⟩

theorem readable_metadata (hplain : c.Plain) (hc : c.Keepable) :
    (Json.ofTable c.metadata).Readable Json.maxDepth := by
  have hentries := (Json.readable_ofTable_iff.1 hc.entries).2
  refine Json.readable_ofTable_iff.2 ⟨by decide, fun f hf => ?_⟩
  rcases Table.mem_of_mem_union hf with hf | hf
  · exact readable_standard hplain hc f hf
  · exact hentries f hf

theorem report_metadata (hc : c.Keepable) :
    Metadata.report (.ofTable c.metadata) = .ok c.model.report := by
  have hnone : c.entries.get? ↑ "training_report" = none := by
    rw [← Option.not_isSome_iff_eq_none, Table.isSome_get?_iff]
    exact hc.report_not_mem
  refine Metadata.report_ofTable ?_
  rw [get?_metadata, hnone, Option.none_or, Table.get?, entries_standard]
  rfl

end Saving

end MaxEnt
