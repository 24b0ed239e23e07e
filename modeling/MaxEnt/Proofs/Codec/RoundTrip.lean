import Mathlib
import MaxEnt.Proofs.Codec.Binary
import MaxEnt.Proofs.Codec.Writing
import MaxEnt.Proofs.Model.Checks
import MaxEnt.Proofs.Table

namespace MaxEnt

namespace Model

theorem keys_sortedEntries_nodup (m : Model Binary64) : (m.sortedEntries.map Prod.fst).Nodup :=
  (m.sortedEntries_perm.map Prod.fst).nodup_iff.2 m.predicates.nodup

theorem ofToken?_token {m : Model Binary64} (hlabels : m.labels.length < 10 ^ Numeral.maxDigits)
    (hpredicates : m.predicates.size < 10 ^ Numeral.maxDigits) {g : PredicateGroup}
    (hg : g ∈ m.groups) : GroupPattern.ofToken? g.token = some g.shape := by
  apply PredicateGroup.ofToken?_token
  · have hg := PredicateGroup.length_members_le hg
    rw [m.length_sorted] at hg
    omega
  · intro o ho
    obtain ⟨p, hp, heq⟩ := PredicateGroup.outcomes_mem_ofList hg
    have hr := m.inRange_of_mem_sorted hp o (heq ▸ ho)
    omega

theorem ofTable_sortedEntries (m : Model Binary64) :
    ∃ n, ofTable m.labels (Table.ofList m.sortedEntries) = .ok n ∧ n.labels = m.labels ∧
      n.predicates.entries.Perm m.predicates.entries := by
  have hentries := Table.entries_ofList m.keys_sortedEntries_nodup
  have hrange : ∀ p ∈ (Table.ofList m.sortedEntries).values, p.InRange m.labels.length := by
    intro p hp
    rw [Table.values, hentries, (m.sortedEntries_perm.map Prod.snd).mem_iff] at hp
    exact m.inRange p hp
  refine ⟨_, ofTable_eq_ok m.two_le m.labels_nodup hrange, rfl, ?_⟩
  rw [hentries]
  exact m.sortedEntries_perm

end Model

namespace Reader

variable {σ : Type}

theorem patterns_run {r : Reader σ} {m : Model Binary64}
    (hlabels : m.labels.length < 10 ^ Numeral.maxDigits)
    (hpredicates : m.predicates.size < 10 ^ Numeral.maxDigits) {s t : σ}
    (h : r.TakesAll s (.int m.groups.length :: m.groups.map (.utf ·.token)) t) :
    (r.list r.groupPattern).run s = (.ok (m.groups.map PredicateGroup.shape), t) :=
  list_run (fun _ hg _ _ hs => groupPattern_run (Model.ofToken?_token hlabels hpredicates hg) hs) h

theorem assemble_run {r : Reader σ} {m : Model Binary64} {s t : σ}
    (h : r.TakesAll s (m.sorted.flatMap (·.params.map .double)) t) :
    ∃ n, (r.assemble m.labels (m.groups.map PredicateGroup.shape) (m.sorted.map (·.name))).run s =
        (.ok n, t) ∧
      n.labels = m.labels ∧ n.predicates.entries.Perm m.predicates.entries := by
  obtain ⟨n, hn, hlabels, hentries⟩ := m.ofTable_sortedEntries
  refine ⟨n, ?_, hlabels, hentries⟩
  have hcovered : checkCovered (GroupPattern.covered (m.groups.map PredicateGroup.shape))
      (m.sorted.map (·.name)).length = .ok () := by
    rw [Model.groups, PredicateGroup.covered_ofList, List.length_map, checkCovered_self]
  have hzip : (m.sorted.map (·.name)).zip
      (GroupPattern.spread (m.groups.map PredicateGroup.shape)) =
      m.sortedEntries.map fun p => (p.1, p.2.outcomes) := by
    rw [Model.groups, PredicateGroup.spread_ofList, List.zip_map',
      m.map_sortedEntries fun name outcomes _ => (name, outcomes)]
  have hparams : (m.sortedEntries.flatMap fun e => e.2.params.map Field.double) =
      m.sorted.flatMap (·.params.map .double) := by
    rw [List.flatMap_def, m.map_sortedEntries fun _ _ params => params.map Field.double,
      List.flatMap_def]
  have hpredicates := predicates_run (hparams ▸ h)
  unfold assemble
  rw [Reading.run_bind_of_ok (x := ()) (t := s) (by rw [hcovered]; rfl), hzip,
    Reading.run_bind_of_ok hpredicates, hn]
  rfl

theorem model_run {r : Reader σ} {m : Model Binary64}
    (hlabels : m.labels.length < 10 ^ Numeral.maxDigits)
    (hpredicates : m.predicates.size < 10 ^ Numeral.maxDigits) {s t : σ}
    (h : r.TakesAll s m.fields t) :
    ∃ n, r.model.run s = (.ok n, t) ∧ n.labels = m.labels ∧
      n.predicates.entries.Perm m.predicates.entries := by
  simp only [Model.fields, takesAll_append] at h
  obtain ⟨u₄, ⟨u₃, ⟨u₂, ⟨u₁, hhead, hls⟩, hgs⟩, hns⟩, hps⟩ := h
  obtain ⟨v₁, htag, v₂, hone, v₃, hdouble, v₄, hcount, rfl⟩ := hhead
  have hls' := list_run (g := id) (fun x _ s t hx => utf_run hx) ⟨v₄, hcount, hls⟩
  have hgs' := patterns_run hlabels hpredicates hgs
  have hns' := list_run (g := NamedPredicate.name) (fun x _ s t hx => utf_run hx) hns
  obtain ⟨n, hn, hm⟩ := assemble_run hps
  refine ⟨n, ?_, hm⟩
  rw [List.map_id] at hls'
  rw [model_eq, Reading.run_bind_of_ok (utf_run htag), if_neg (not_not.2 rfl), untagged,
    Reading.run_bind_of_ok (int_run hone), Reading.run_bind_of_ok (double_run hdouble),
    Reading.run_bind_of_ok hls', Reading.run_bind_of_ok hgs', Reading.run_bind_of_ok hns', hn]

end Reader

namespace Model

/-- The limits of the binary format. -/
structure FitsBinary (m : Model Binary64) : Prop where
  labels : ∀ label ∈ m.labels, Binary.FitsString label
  tokens : ∀ g ∈ m.groups, Binary.FitsString g.token
  names : ∀ name ∈ m.predicates.keys, Binary.FitsString name
  labelCount : m.labels.length < 2 ^ 31
  groupCount : m.groups.length < 2 ^ 31
  predicateCount : m.predicates.size < 2 ^ 31

/-- No label and no name has a pair of surrogates. -/
def Unpaired (m : Model Binary64) : Prop :=
  (∀ label ∈ m.labels, ModifiedUtf8.Unpaired label) ∧
    ∀ name ∈ m.predicates.keys, ModifiedUtf8.Unpaired name

instance (m : Model Binary64) : Decidable m.Unpaired := inferInstanceAs (Decidable (_ ∧ _))

theorem name_mem_keys {m : Model Binary64} {p : NamedPredicate} (h : p ∈ m.sorted) :
    p.name ∈ m.predicates.keys := by
  obtain ⟨e, he, rfl⟩ := exists_entry_of_mem_sorted h
  exact List.mem_map_of_mem he

theorem label_mem_fields {m : Model Binary64} {label : Text} (h : label ∈ m.labels) :
    Field.utf label ∈ m.fields := by
  simp [fields, h]

theorem name_mem_fields {m : Model Binary64} {name : Text} (h : name ∈ m.predicates.keys) :
    Field.utf name ∈ m.fields := by
  obtain ⟨e, he, rfl⟩ := List.mem_map.1 h
  have hp : (⟨e.1, e.2.outcomes, e.2.params⟩ : NamedPredicate) ∈ m.sorted :=
    m.sorted_perm.mem_iff.2 (List.mem_map_of_mem he)
  simp only [fields, List.mem_append, List.mem_cons, List.mem_map]
  exact .inl (.inr (.inr ⟨_, hp, rfl⟩))

theorem field_cases {m : Model Binary64} {P : Field → Prop} (htag : P (.utf tag)) (hone : P (.int 1))
    (hdouble : ∀ x, P (.double x)) (hlabelCount : P (.int m.labels.length))
    (hlabels : ∀ label ∈ m.labels, P (.utf label)) (hgroupCount : P (.int m.groups.length))
    (htokens : ∀ g ∈ m.groups, P (.utf g.token)) (hcount : P (.int m.sorted.length))
    (hnames : ∀ p ∈ m.sorted, P (.utf p.name)) : ∀ f ∈ m.fields, P f := by
  intro f hf
  simp only [fields, List.mem_append, List.mem_cons, List.mem_map, List.mem_flatMap,
    List.not_mem_nil, or_false] at hf
  rcases hf with (((hf | ⟨label, h, rfl⟩) | (rfl | ⟨g, h, rfl⟩)) | (rfl | ⟨p, h, rfl⟩)) | ⟨p, h, x, -, rfl⟩
  · rcases hf with rfl | rfl | rfl | rfl
    · exact htag
    · exact hone
    · exact hdouble _
    · exact hlabelCount
  · exact hlabels label h
  · exact hgroupCount
  · exact htokens g h
  · exact hcount
  · exact hnames p h
  · exact hdouble x

theorem FitsBinary.fields {m : Model Binary64} (h : m.FitsBinary) : ∀ f ∈ m.fields, Binary.Fits f := by
  have hint : ∀ n : Nat, n < 2 ^ 31 → Binary.Fits (.int n) := fun _ => Binary.fitsInt_of_lt
  refine field_cases ?_ (hint 1 (by decide)) (fun _ => trivial) (hint _ h.labelCount) h.labels
    (hint _ h.groupCount) h.tokens (hint _ ?_) fun p hp => h.names _ (name_mem_keys hp)
  · exact (by decide : Binary.FitsString tag)
  · rw [length_sorted]
    exact h.predicateCount

theorem FitsBinary.of_fields {m : Model Binary64} (h : ∀ f ∈ m.fields, Binary.Fits f) :
    m.FitsBinary := by
  have hint : ∀ n : Nat, Field.int n ∈ m.fields → n < 2 ^ 31 := by
    intro n hn
    have hfits := h _ hn
    simp only [Binary.Fits, Binary.fitsInt, Bool.and_eq_true, decide_eq_true_eq] at hfits
    omega
  constructor
  case labels => exact fun label hl => h _ (label_mem_fields hl)
  case tokens =>
    intro g hg
    apply h (.utf g.token)
    rw [groups] at hg
    simp only [Model.fields, List.mem_append, List.mem_cons, List.mem_map]
    exact .inl (.inl (.inr (.inr ⟨g, hg, rfl⟩)))
  case names => exact fun name hn => h _ (name_mem_fields hn)
  case labelCount => exact hint _ (by simp [Model.fields])
  case groupCount => exact hint _ (by simp [Model.fields, groups])
  case predicateCount => exact hint _ (by simp [Model.fields, length_sorted])

theorem FitsBinary.of_tokens {m : Model Binary64} {tokens : List Text}
    (htokens : m.groups.map PredicateGroup.token = tokens)
    (hfits : ∀ t ∈ m.labels ++ tokens ++ m.predicates.keys, Binary.FitsString t)
    (hlabels : m.labels.length < 2 ^ 31) (hgroups : tokens.length < 2 ^ 31)
    (hpredicates : m.predicates.size < 2 ^ 31) : m.FitsBinary where
  labels label hl := hfits label (by simp [hl])
  tokens g hg := hfits g.token (by simp [← htokens, List.mem_map_of_mem hg])
  names name hn := hfits name (by simp [hn])
  labelCount := hlabels
  groupCount := by rwa [← htokens, List.length_map] at hgroups
  predicateCount := hpredicates

/-- Ten thousand labels are so few that no token is too long, as long as no predicate lists more
outcomes than there are labels. -/
theorem FitsBinary.of_counts {m : Model Binary64}
    (hlabels : ∀ label ∈ m.labels, Binary.FitsString label)
    (hnames : ∀ name ∈ m.predicates.keys, Binary.FitsString name)
    (houtcomes : ∀ p ∈ m.predicates.values, p.outcomes.length ≤ m.labels.length)
    (hlabelCount : m.labels.length ≤ 10 ^ 4) (hpredicateCount : m.predicates.size < 2 ^ 31) :
    m.FitsBinary where
  labels := hlabels
  tokens := by
    intro g hg
    obtain ⟨p, hp, hpattern⟩ := PredicateGroup.outcomes_mem_ofList hg
    obtain ⟨e, he, rfl⟩ := exists_entry_of_mem_sorted hp
    have hlength : g.outcomes.length ≤ m.labels.length :=
      hpattern ▸ houtcomes e.2 (List.mem_map_of_mem he)
    have hmembers : g.members.length < 10 ^ 10 := by
      have hle := PredicateGroup.length_members_le hg
      rw [m.length_sorted] at hle
      omega
    have hplaces : ∀ o ∈ g.outcomes, 0 ≤ o ∧ o.natAbs < 10 ^ 4 := by
      intro o ho
      have hrange := m.inRange_of_mem_sorted hp o (hpattern ▸ ho)
      omega
    have htoken := PredicateGroup.length_token_le (by decide) (by decide) hmembers hplaces
    rw [Binary.FitsString, ModifiedUtf8.length_encode_of_ascii g.ascii_token, maxStringBytes]
    omega
  names := hnames
  labelCount := by omega
  groupCount := Nat.lt_of_le_of_lt m.length_groups_le hpredicateCount
  predicateCount := hpredicateCount

theorem FitsBinary.labelCount_lt {m : Model Binary64} (h : m.FitsBinary) :
    m.labels.length < 10 ^ Numeral.maxDigits :=
  Numeral.lt_pow_maxDigits (h.labelCount.trans (by decide))

theorem FitsBinary.predicateCount_lt {m : Model Binary64} (h : m.FitsBinary) :
    m.predicates.size < 10 ^ Numeral.maxDigits :=
  Numeral.lt_pow_maxDigits (h.predicateCount.trans (by decide))

theorem Unpaired.joined_fields {m : Model Binary64} (h : m.Unpaired) :
    m.fields.map Binary.joined = m.fields := by
  have hjoined : ∀ f ∈ m.fields, Binary.joined f = f := by
    have hutf : ∀ t, ModifiedUtf8.Unpaired t → Binary.joined (.utf t) = .utf t := by
      intro t ht
      rw [Binary.joined, ModifiedUtf8.joinSurrogates_of_unpaired ht]
    exact field_cases rfl rfl (fun _ => rfl) rfl (fun label hl => hutf label (h.1 label hl)) rfl
      (fun g _ => hutf g.token g.unpaired_token) rfl
      fun p hp => hutf p.name (h.2 p.name (name_mem_keys hp))
  rw [List.map_congr_left hjoined, List.map_id']

theorem FitsBinary.run_bytes {m : Model Binary64} (hfits : m.FitsBinary) (hunpaired : m.Unpaired)
    (rest : List UInt8) :
    ∃ n, Binary.reader.model.run (m.fields.flatMap Binary.bytes ++ rest) = (.ok n, rest) ∧
      n.labels = m.labels ∧ ∀ name, n.predicates.get? name = m.predicates.get? name := by
  have htakes := Binary.takesAll_bytes hfits.fields rest
  rw [hunpaired.joined_fields] at htakes
  obtain ⟨n, hn, hlabels, hentries⟩ := Reader.model_run hfits.labelCount_lt
    hfits.predicateCount_lt htakes
  exact ⟨n, hn, hlabels, Table.get?_eq_of_perm hentries⟩

end Model

namespace Binary

theorem complete_iff_fitsBinary {m : Model Binary64} {owned : Bool} {o : Output UInt8} :
    ((Output.writer encode owned).persist m o).2 = none ↔ m.FitsBinary := by
  rw [Output.persist_snd_eq_none_iff]
  constructor
  · intro h
    exact .of_fields fun f hf => fits_of_encode (h f hf).choose_spec
  · intro h f hf
    exact ⟨_, encode_of_fits (h.fields f hf)⟩

theorem written_of_persist {m : Model Binary64} {owned : Bool} {o : Output UInt8}
    (h : (Output.writer encode owned).persist m .empty = (o, none)) :
    m.FitsBinary ∧ o.written = m.fields.flatMap bytes := by
  have hfits : m.FitsBinary := complete_iff_fitsBinary.1 (congrArg Prod.snd h)
  have hwritten :=
    Output.written_persist_of_ok (fun f hf => encode_of_fits (hfits.fields f hf)) owned
  rw [h] at hwritten
  exact ⟨hfits, hwritten⟩

/-- A model within the limits is written, and read back from the bytes whatever stands behind them:
the same labels, and under every name the same outcomes and parameters, bit for bit. -/
theorem read_persisted (m : Model Binary64) (hfits : m.FitsBinary) (hunpaired : m.Unpaired) :
    ∃ o, (Output.writer encode false).persist m .empty = (o, none) ∧ o.isOpen = true ∧
      ∀ rest, ∃ n, reader.model.run (o.written ++ rest) = (.ok n, rest) ∧ n.labels = m.labels ∧
        ∀ name, n.predicates.get? name = m.predicates.get? name := by
  obtain ⟨o, ho, hopen, hwritten⟩ :=
    Output.persist_of_ok fun f hf => encode_of_fits (hfits.fields f hf)
  refine ⟨o, ho, hopen, fun rest => ?_⟩
  rw [hwritten]
  exact hfits.run_bytes hunpaired rest

/-- A model with an outcome listed twice, a predicate without outcomes, and names out of order. -/
def mixedModel : Model Binary64 where
  labels := ["no", ""]
  predicates := .ofList [("b", ⟨[(0, .one), (0, .notANumber true)]⟩),
    ([0x1D11E], ⟨[(1, .infinity true)]⟩), ("a", ⟨[]⟩), ([0], ⟨[(1, .zero)]⟩)]
  two_le := by decide
  labels_nodup := by decide
  inRange := by decide

theorem tokens_mixedModel :
    mixedModel.groups.map PredicateGroup.token = ([↑ "1", ↑ "2 1", ↑ "1 0 0"] : List Text) := by
  cbv

theorem fitsBinary_mixedModel : mixedModel.FitsBinary :=
  .of_tokens tokens_mixedModel (by decide) (by decide) (by decide) (by decide)

theorem read_persisted_mixedModel :
    mixedModel.FitsBinary ∧ mixedModel.Unpaired ∧
      ∃ o, (Output.writer encode false).persist mixedModel .empty = (o, none) ∧ o.isOpen = true ∧
        ∀ rest, ∃ n, reader.model.run (o.written ++ rest) = (.ok n, rest) ∧
          n.labels = mixedModel.labels ∧
          ∀ name, n.predicates.get? name = mixedModel.predicates.get? name :=
  ⟨fitsBinary_mixedModel, by decide,
    read_persisted mixedModel fitsBinary_mixedModel (by decide)⟩

end Binary

end MaxEnt
