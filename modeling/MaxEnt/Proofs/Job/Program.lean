import MaxEnt.Job.Program
import MaxEnt.Proofs.Index.Sorted
import MaxEnt.Proofs.Job.Run
import MaxEnt.Proofs.Training.Phases
import MaxEnt.Proofs.Training.Session

namespace MaxEnt.Program

open FileTree ModelStore

variable {s : Settings} {files : FileTree} {store : ModelStore} {folder : Text} {r : JobRun}

/-- The files when the program is over, be it that it was broken off. -/
def filesAfter (s : Settings) (files : FileTree) (time : Text) : FileTree :=
  if s.dataPath.json.affirms then
    match job s files time with
    | .ok r => r.store.files
    | .error _ => files
  else files

def Succeeds (s : Settings) (files : FileTree) (time : Text) : Prop :=
  ∃ r, run s files time = .ok r ∧ r.succeeds = true

theorem ending_eq_ok {q : ProgramRun} (h : ending r = .ok q) :
    q.files = r.store.files ∧ (q.succeeds = true ↔ ∃ p, r.result = .ok p) := by
  rw [ending] at h
  cases hresult : r.result with
  | ok p =>
    simp only [hresult] at h
    obtain rfl := Except.ok.inj h
    exact ⟨rfl, by simp⟩
  | error e =>
    simp only [hresult] at h
    split at h
    · obtain rfl := Except.ok.inj h
      exact ⟨rfl, by simp⟩
    · cases h

theorem ending_of_ok {p : Path} (h : r.result = .ok p) : ∃ q, ending r = .ok q := by
  simp only [ending, h]
  exact ⟨_, rfl⟩

theorem files_of_run {time : Text} {q : ProgramRun} (h : run s files time = .ok q) :
    q.files = filesAfter s files time := by
  rw [run] at h
  rw [filesAfter]
  split
  · rename_i hdata
    rw [if_pos hdata, Except.bind_eq_ok_iff] at h
    obtain ⟨r, hr, hending⟩ := h
    rw [hr]
    exact (ending_eq_ok hending).1
  · rename_i hdata
    rw [if_neg hdata] at h
    obtain rfl := Except.ok.inj h
    rfl

theorem succeeds_iff {time : Text} : Succeeds s files time ↔ s.dataPath.json.affirms = true ∧
    ∃ r p, job s files time = .ok r ∧ r.result = .ok p := by
  by_cases hdata : s.dataPath.json.affirms = true
  · rw [Succeeds, run, if_pos hdata, and_iff_right hdata]
    constructor
    · rintro ⟨q, hq, hsucceeds⟩
      rw [Except.bind_eq_ok_iff] at hq
      obtain ⟨r, hr, hending⟩ := hq
      obtain ⟨p, hp⟩ := (ending_eq_ok hending).2.1 hsucceeds
      exact ⟨r, p, hr, hp⟩
    · rintro ⟨r, p, hr, hp⟩
      obtain ⟨q, hq⟩ := ending_of_ok hp
      rw [hr]
      exact ⟨q, hq, (ending_eq_ok hq).2.2 ⟨p, hp⟩⟩
  · rw [Succeeds, run, if_neg hdata]
    simp [hdata]

theorem job_of_parameters {parameters : Parameters} (hfolder : s.modelsFolder = .proper folder)
    (hopen : openAt files (.ofText folder) = .ok store)
    (hparameters : Job.parametersOf s = .ok parameters) (time : Text) :
    job s files time = .ok ((Job.ofSettings s parameters).run store time) := by
  rw [job, hparameters]
  simp only [hfolder, hopen]
  rfl

theorem job_eq_ok {time : Text} (hfolder : s.modelsFolder = .proper folder)
    (hopen : openAt files (.ofText folder) = .ok store) (h : job s files time = .ok r) :
    ∃ parameters, Job.parametersOf s = .ok parameters ∧
      r = (Job.ofSettings s parameters).run store time := by
  rw [job, Except.bind_eq_ok_iff] at h
  obtain ⟨parameters, hparameters, h⟩ := h
  simp only [hfolder, hopen] at h
  cases hmapping : Job.parametersOf s with
  | error e =>
    rw [hmapping] at hparameters
    cases hparameters
  | ok parameters' =>
    rw [hmapping] at hparameters
    obtain rfl := Except.ok.inj hparameters
    exact ⟨parameters', rfl, (Except.ok.inj h).symm⟩

theorem openAt_eq_ok {p : Path} (h : openAt files p = .ok store) :
    (∃ here, Located store.files store.folder here) ∧ files.Gains store.files [] := by
  rw [openAt] at h
  cases hmade : files.makeFolders p with
  | error e =>
    rw [hmade] at h
    cases h
  | ok after =>
    rw [hmade] at h
    obtain rfl := Except.ok.inj h
    exact ⟨exists_located_of_makeFolders hmade, gains_makeFolders hmade⟩

/-- Where the folder of the models can be opened and has room for two more files, a program succeeds
exactly if it has data and trains a model that fits. -/
theorem succeeds_iff_trains {time : Moment} (hname : PlainName s.modelName.shown)
    (hversion : PlainName s.modelVersion.shown) (hfolder : s.modelsFolder = .proper folder)
    (hopen : openAt files (.ofText folder) = .ok store)
    (hroom : store.HasRoom s.modelName.shown s.modelVersion.shown time.text) :
    Succeeds s files time.text ↔ s.dataPath.json.affirms = true ∧
      ∃ parameters t, Job.parametersOf s = .ok parameters ∧
        (Job.ofSettings s parameters).Trains store.files t ∧ t.model.FitsBinary := by
  obtain ⟨⟨here, hs⟩, -⟩ := openAt_eq_ok hopen
  rw [succeeds_iff, and_congr_right_iff]
  intro hdata
  constructor
  · rintro ⟨r, p, hr, hp⟩
    obtain ⟨parameters, hparameters, rfl⟩ := job_eq_ok hfolder hopen hr
    obtain ⟨t, ht⟩ := (Job.exists_result_iff hname hversion hs hroom).1 ⟨p, hp⟩
    exact ⟨parameters, t, hparameters, ht⟩
  · rintro ⟨parameters, t, hparameters, ht⟩
    obtain ⟨p, hp⟩ :=
      (Job.exists_result_iff (j := Job.ofSettings s parameters) hname hversion hs hroom).2 ⟨t, ht⟩
    exact ⟨_, p, job_of_parameters hfolder hopen hparameters time.text, hp⟩

/-- Where the folder of the models can be opened and has room for two more files, a program that
succeeds has stored there the model that it trained: two files are new, and the model is read back
with its labels and, under every name, its outcomes and parameters, bit for bit. A program that does
not succeed, whatever it is broken off by, leaves no new file and no other content in the old ones. -/
theorem stores_or_leaves {time : Moment} (hname : PlainName s.modelName.shown)
    (hversion : PlainName s.modelVersion.shown) (hfolder : s.modelsFolder = .proper folder)
    (hopen : openAt files (.ofText folder) = .ok store)
    (hroom : store.HasRoom s.modelName.shown s.modelVersion.shown time.text) :
    (∀ q, run s files time.text = .ok q → q.files = filesAfter s files time.text) ∧
      (Succeeds s files time.text → ∃ here parameters r t,
        Located store.files store.folder here ∧ Job.parametersOf s = .ok parameters ∧
        job s files time.text = .ok r ∧ (Job.ofSettings s parameters).Stores store time r t ∧
        r.store.files = filesAfter s files time.text ∧
        files.Gains (filesAfter s files time.text)
          [here.child (modelName s.modelName.shown s.modelVersion.shown time.text),
            here.child (metadataName s.modelName.shown s.modelVersion.shown time.text)]) ∧
      (¬ Succeeds s files time.text → files.Gains (filesAfter s files time.text) []) := by
  obtain ⟨⟨here, hs⟩, hopened⟩ := openAt_eq_ok hopen
  refine ⟨fun q hq => files_of_run hq, fun hsucceeds => ?_, fun hfails => ?_⟩
  · obtain ⟨hdata, r, p, hr, hp⟩ := succeeds_iff.1 hsucceeds
    obtain ⟨parameters, hparameters, hrun⟩ := job_eq_ok hfolder hopen hr
    have hafter : r.store.files = filesAfter s files time.text := by
      rw [filesAfter, if_pos hdata, hr]
    have hends := Job.ends_run (Job.ofSettings s parameters) store time
    rw [← hrun] at hends
    rcases Job.stores_or_fails hname hversion hs hroom hends with ⟨t, hstores, hgains⟩ | ⟨⟨e, he⟩, -⟩
    · exact ⟨here, parameters, r, t, hs, hparameters, hr, hstores, hafter,
        hafter ▸ hopened.trans hgains⟩
    · rw [hp] at he
      cases he
  · rw [filesAfter]
    split
    · rename_i hdata
      cases hr : job s files time.text with
      | error e => exact .refl files
      | ok r =>
        obtain ⟨parameters, -, hrun⟩ := job_eq_ok hfolder hopen hr
        have hends := Job.ends_run (Job.ofSettings s parameters) store time
        rw [← hrun] at hends
        rcases Job.stores_or_fails hname hversion hs hroom hends with ⟨t, hstores, -⟩ | ⟨-, hgains⟩
        -- A job that has stored a model gives its path, and no program fails then.
        · exact absurd (succeeds_iff.2 ⟨hdata, r, _, hr, hstores.result⟩) hfails
        · exact hopened.trans hgains
    · exact .refl files

def modest : Settings :=
  { modelsFolder := .proper "models"
    dataPath := .proper (some "train.events")
    cutoff := .proper (some 1) }

def modestParameters : Parameters := { cutoff := .proper (some 1) }

def supplied (data : List UInt8) : FileTree :=
  ⟨.ofList [(⟨"", ["train.events"]⟩, .file ⟨data, false⟩), (⟨"", ["models"]⟩, .folder),
    (⟨"", ["models", "old.bin"]⟩, .file ⟨[0], false⟩)]⟩

/-- The one event is the line `A x`. -/
def lone : FileTree := supplied [65, 32, 120, 10]

/-- The two events are the lines `A x` and `B y`. -/
def pair : FileTree := supplied [65, 32, 120, 10, 66, 32, 121, 10]

theorem modelName_modest : modelName modest.modelName.shown modest.modelVersion.shown
    (trial "v1" 1).time.text = ↑ "maxent_v1_20240102_030405_000001.bin" := by
  decide +kernel

theorem metadataName_modest : metadataName modest.modelName.shown modest.modelVersion.shown
    (trial "v1" 1).time.text = ↑ "maxent_v1_20240102_030405_000001_metadata.json" := by
  decide +kernel

theorem openAt_supplied (data : List UInt8) :
    openAt (supplied data) (.ofText "models") = .ok ⟨supplied data, .ofText "models"⟩ := rfl

theorem names_supplied (data : List UInt8) :
    (supplied data).names (.ofText "models") = [↑ "old.bin"] := rfl

theorem hasRoom_supplied (data : List UInt8) : HasRoom ⟨supplied data, .ofText "models"⟩
    modest.modelName.shown modest.modelVersion.shown (trial "v1" 1).time.text where
  admits_model := by
    rw [modelName_modest]
    exact (by decide +kernel : Admits (.ofText "models") "maxent_v1_20240102_030405_000001.bin")
  admits_metadata := by
    rw [metadataName_modest]
    exact (by decide +kernel :
      Admits (.ofText "models") "maxent_v1_20240102_030405_000001_metadata.json")
  model_not_mem := by
    rw [modelName_modest, names_supplied]
    decide +kernel
  metadata_not_mem := by
    rw [metadataName_modest, names_supplied]
    decide +kernel

section Pair

open Indexing Trainer

def pairEvents : List Event := [⟨"A", .plain ["x"]⟩, ⟨"B", .plain ["y"]⟩]

theorem source_pair : (Job.source pair (.proper "train.events") .events).1 = .ofList pairEvents := rfl

theorem index_pairEvents :
    (build ⟨.onePass, 1, true⟩ pairEvents pairEvents).index = Session.twoRows := by
  have hpredicates : keptPredicates 1 pairEvents = [(↑ "x", 1), (↑ "y", 1)] := by cbv
  have hlabels : keptLabels 1 pairEvents = [↑ "A", ↑ "B"] := by cbv
  have hrows : keptRows ⟨.onePass, 1, true⟩ pairEvents = [⟨0, [0], none⟩, ⟨1, [1], none⟩] := by cbv
  have hsorted : sortAndMerge [⟨0, [0], none⟩, ⟨1, [1], none⟩] =
      [(⟨0, [0], none⟩, 1), (⟨1, [1], none⟩, 1)] := by cbv
  rw [index_sorted, hpredicates, hlabels, hrows, hsorted]
  rfl

theorem parametersOf_modest : Job.parametersOf modest = .ok modestParameters := rfl

theorem typed_modestParameters : modestParameters.Typed :=
  { Parameters.typed_default with cutoff := ⟨_, rfl⟩ }

theorem exists_training_pair :
    ∃ t, (Job.ofSettings modest modestParameters).training pair .events = .ok t ∧
      t.model.labels = [↑ "A", ↑ "B"] := by
  have hevents : ∀ e ∈ pairEvents, e.Encodable := by decide
  have hmany : ¬ OneOutcome 1 pairEvents := by
    rw [← length_keptLabels_le_one]
    decide
  obtain ⟨ix, i, hix, hi, hresult, -⟩ := trainEvents_of_many (ε := SourceError) typed_modestParameters
    (by decide) hevents rfl (by rintro ⟨hindexer, -⟩; cases hindexer) hmany
  obtain rfl : .onePass = ix := name_injective (Held.proper.inj hix)
  have hindex : i.index = Session.twoRows := by
    rw [← Except.ok.inj hi]
    exact index_pairEvents
  rw [← source_pair, hindex, result_runMethod] at hresult
  obtain ⟨r, hr⟩ : ∃ r, (Method.scaling.train 0 (prepareParameters .scaling modestParameters)
      Session.twoRows).1 = .ok r :=
    Method.exists_train (Parameters.typed_prepareParameters typed_modestParameters (by decide) .scaling)
      (by decide) (by decide) (by decide)
  have htrain : (Method.scaling.train (indexed modestParameters pairEvents).runs
      (indexed modestParameters pairEvents).parameters Session.twoRows).1 = .ok r := hr
  rw [htrain] at hresult
  exact ⟨_, hresult, (Method.scaledOf_train hr).labels⟩

theorem succeeds_pair : Succeeds modest pair (trial "v1" 1).time.text := by
  obtain ⟨t, htraining, -⟩ := exists_training_pair
  refine (succeeds_iff_trains (by decide) (by decide) rfl (openAt_supplied _)
    (hasRoom_supplied _)).2 ⟨rfl, _, t, parametersOf_modest, ⟨.events, rfl, htraining⟩, ?_⟩
  have hdrawn : t.model.DrawnFrom pairEvents := Job.drawnFrom_of_training htraining
  exact hdrawn.fitsBinary (by decide) (by decide) (by decide)

end Pair

theorem not_succeeds_lone : ¬ Succeeds modest lone (trial "v1" 1).time.text := by
  obtain ⟨q, hq, hfails⟩ :
      ∃ q, run modest lone (trial "v1" 1).time.text = .ok q ∧ q.succeeds = false := ⟨_, rfl, rfl⟩
  rintro ⟨q', hq', hsucceeds⟩
  rw [hq, Except.ok.injEq] at hq'
  subst hq'
  rw [hfails] at hsucceeds
  cases hsucceeds

/-- Two outcomes make a model that is stored and read back, and one makes none. -/
theorem stores_or_leaves_pair_lone :
    PlainName modest.modelName.shown ∧ PlainName modest.modelVersion.shown ∧
      modest.modelsFolder = .proper "models" ∧
      (openAt pair (.ofText "models") = .ok ⟨pair, .ofText "models"⟩ ∧
        HasRoom ⟨pair, .ofText "models"⟩ modest.modelName.shown modest.modelVersion.shown
          (trial "v1" 1).time.text ∧
        Succeeds modest pair (trial "v1" 1).time.text ∧
        (∃ n, Model.load (filesAfter modest pair (trial "v1" 1).time.text)
            ((Path.ofText "models").child "maxent_v1_20240102_030405_000001.bin") = .ok n ∧
          n.labels = [↑ "A", ↑ "B"]) ∧
        pair.Gains (filesAfter modest pair (trial "v1" 1).time.text)
          [(Path.ofText "models").child "maxent_v1_20240102_030405_000001.bin",
            (Path.ofText "models").child "maxent_v1_20240102_030405_000001_metadata.json"]) ∧
      openAt lone (.ofText "models") = .ok ⟨lone, .ofText "models"⟩ ∧
      HasRoom ⟨lone, .ofText "models"⟩ modest.modelName.shown modest.modelVersion.shown
        (trial "v1" 1).time.text ∧
      (∃ q, run modest lone (trial "v1" 1).time.text = .ok q ∧ q.succeeds = false) ∧
      lone.Gains (filesAfter modest lone (trial "v1" 1).time.text) [] := by
  have hname : PlainName modest.modelName.shown := by decide
  have hversion : PlainName modest.modelVersion.shown := by decide
  refine ⟨hname, hversion, rfl, ⟨openAt_supplied _, hasRoom_supplied _, succeeds_pair, ?_⟩,
    openAt_supplied _, hasRoom_supplied _, ⟨_, rfl, rfl⟩, ?_⟩
  · obtain ⟨-, hstored, -⟩ := stores_or_leaves hname hversion rfl (openAt_supplied _)
      (hasRoom_supplied _)
    obtain ⟨here, parameters, r, t, hs, hparameters, -, hstores, hafter, hgains⟩ :=
      hstored succeeds_pair
    obtain rfl := Except.ok.inj (parametersOf_modest.symm.trans hparameters)
    obtain rfl : .ofText "models" = here := Except.ok.inj hs.resolve
    obtain ⟨u, htraining, hlabels⟩ := exists_training_pair
    obtain rfl : t = u := hstores.trains.unique ⟨.events, rfl, htraining⟩
    obtain ⟨n, hload, hread, -⟩ := hstores.load
    rw [modelName_modest, metadataName_modest] at hgains
    have hmodel : modelName (Job.ofSettings modest modestParameters).name.shown
        (Job.ofSettings modest modestParameters).version.shown
        (trial "v1" 1).time.text = ↑ "maxent_v1_20240102_030405_000001.bin" := modelName_modest
    rw [hafter, hmodel] at hload
    exact ⟨⟨n, hload, hread.trans hlabels⟩, hgains⟩
  · obtain ⟨-, -, hleaves⟩ := stores_or_leaves hname hversion rfl (openAt_supplied _)
      (hasRoom_supplied _)
    exact hleaves not_succeeds_lone

end MaxEnt.Program
