import MaxEnt.Proofs.Training.Reports

namespace MaxEnt

namespace Parameters

variable {ps : Parameters}

def cutoffInForce (ps : Parameters) : Int := ps.cutoff.proper?.join.getD Trainer.defaultCutoff

/-- Preparing parameters gives them an order of rows and a cutoff, and leaves the others alone. -/
theorem prepareParameters_eq (htyped : ps.Typed) (hdistinct : ps.Distinct) (m : Method) :
    ∃ options, Trainer.prepareParameters m ps =
      { ps with
        sortAndMerge := .proper (some m.sorts)
        cutoff := .proper (some ps.cutoffInForce)
        options := options
        hidden := .empty } := by
  obtain ⟨options, hsettle⟩ := hdistinct.settle
  obtain ⟨cutoff, hcutoff⟩ := htyped.cutoff
  refine ⟨options, ?_⟩
  rw [Trainer.prepareParameters, hsettle, cutoffInForce, hcutoff]
  cases cutoff <;> rfl

theorem typed_prepareParameters (htyped : ps.Typed) (hdistinct : ps.Distinct) (m : Method) :
    (Trainer.prepareParameters m ps).Typed := by
  obtain ⟨options, h⟩ := prepareParameters_eq htyped hdistinct m
  rw [h]
  exact { htyped with sortAndMerge := ⟨_, rfl⟩, cutoff := ⟨_, rfl⟩ }

theorem not_unfit_prepareParameters (htyped : ps.Typed) (hdistinct : ps.Distinct) (m : Method)
    (h : ¬ ps.Unfit) : ¬ (Trainer.prepareParameters m ps).Unfit := by
  obtain ⟨options, hps⟩ := prepareParameters_eq htyped hdistinct m
  obtain ⟨cutoff, hcutoff⟩ := htyped.cutoff
  rw [Unfit, not_or, not_or, not_or] at h ⊢
  obtain ⟨htype, hindexer, hiterations, hbelow⟩ := h
  rw [hps]
  refine ⟨htype, hindexer, hiterations, ?_⟩
  rw [hcutoff] at hbelow
  simp only [cutoffInForce, hcutoff]
  cases cutoff with
  | some c => exact hbelow
  | none =>
    rintro ⟨n, hn, hnegative⟩
    cases hn
    cases hnegative

end Parameters

namespace Trainer

variable {ε : Type} {ps : Parameters} {t : Trainer}

theorem index_of_ok {events : List Event} {ix : Indexer} {cutoff : Int} {sort : Bool} {i : Indexing}
    (hcutoff : t.parameters.cutoff = .proper (some cutoff))
    (h : Indexing.ofEvents ⟨ix, cutoff, sort⟩ events = .ok i) :
    t.index ix sort (.ofList events : Drain (TrainingError ε) Event) =
      { result := .ok i
        trainer := { t with report := t.report.union (i.report.map .string) }
        warnings := i.warnings } := by
  have hfor : Indexing.cutoffFor events t.parameters.cutoff.json = some cutoff := by
    rw [hcutoff]
    rfl
  simp only [index, Drain.ofList, hfor, h]

theorem index_of_error {events : List Event} {ix : Indexer} {cutoff : Int} {sort : Bool}
    {n : NegativeValue} (hcutoff : t.parameters.cutoff = .proper (some cutoff))
    (h : Indexing.ofEvents ⟨ix, cutoff, sort⟩ events = .error n) :
    t.index ix sort (.ofList events : Drain (TrainingError ε) Event) =
      { result := .error (.negative n), trainer := t } := by
  have hfor : Indexing.cutoffFor events t.parameters.cutoff.json = some cutoff := by
    rw [hcutoff]
    rfl
  simp only [index, Drain.ofList, hfor, h]

/-- A fresh trainer whose parameters are valid takes the one method there is, and the indexer of the
parameters. -/
theorem buildIndex_of_valid (htyped : ps.Typed) (hdistinct : ps.Distinct)
    (hvalid : (fresh ps).validate ps = .ok ()) :
    ∃ ix : Indexer, ps.indexer = .proper ix.name ∧
      ∀ events : Drain (TrainingError ε) Event, (fresh ps).buildIndex events =
        ((fresh ps).prepare .scaling).index ix true events := by
  have hgood := (refuses_validate (fresh ps) htyped.comparable).ok_iff.1 hvalid
  simp only [Invalid, fresh, Parameters.Unfit, true_and, not_or, not_not, not_forall] at hgood
  obtain ⟨⟨-, ⟨ix, hix⟩, -⟩, algorithm, m, halgorithm, hm⟩ := hgood
  obtain ⟨name, hname⟩ := htyped.indexer
  obtain rfl : name = ix.name := by
    rw [hname] at hix
    exact Option.some.inj hix
  have hmethod : (fresh ps).method? = .ok .scaling := by
    simp only [method?, fresh, methodOf, halgorithm, lookUp, hm, eq_scaling_of_ofName? hm]
    rfl
  obtain ⟨options, hprepare⟩ := Parameters.prepareParameters_eq htyped hdistinct .scaling
  have hindexer : ((fresh ps).prepare .scaling).indexer? = .ok ix := by
    simp only [indexer?, prepare, fresh, hprepare, hname, lookUp, ofName?_name]
    rfl
  refine ⟨ix, hname, fun events => ?_⟩
  simp only [buildIndex, hmethod, hindexer]
  rfl

theorem get?_report_runMethod (t : Trainer) (x : EventIndex) {key : Text} (h : key ∉ trainedKeys) :
    (t.runMethod .scaling x : Outcome ε Trained).trainer.report.get? key = t.report.get? key := by
  rw [runMethod]
  split
  · rfl
  · rename_i r warnings hm
    obtain ⟨steps, likelihood, hreport⟩ :=
      (Method.scaledOf_train (congrArg Prod.fst hm)).report
    simp only [hreport, report_addReport]
    exact Table.get?_insertAll_of_not_mem _ h

/-- The indexer of the parameters keeps values, and one of the events is below zero. -/
def RefusesValues (ps : Parameters) (events : List Event) : Prop :=
  ps.indexer = .proper Indexer.onePassRealValue.name ∧
    ∃ e ∈ events, ∃ x ∈ e.values.getD [], x.lessThan .zero = true

theorem refusesValues_iff {ix : Indexer} (h : ps.indexer = .proper ix.name) (events : List Event) :
    RefusesValues ps events ↔ Indexing.HasNegative ix events := by
  have hname : ps.indexer = .proper Indexer.onePassRealValue.name ↔ ix = .onePassRealValue := by
    rw [h]
    exact ⟨fun heq => name_injective (Held.proper.inj heq), fun heq => by rw [heq]⟩
  rw [RefusesValues, Indexing.HasNegative, hname]

/-- The trainer between indexing and the method: prepared, with all in its report that is known of the
events. -/
def indexed (ps : Parameters) (events : List Event) : Trainer :=
  { (fresh ps).prepare .scaling with
    report := .ofList (corpusReport ps.cutoffInForce events) }

theorem validate_indexed (htyped : ps.Typed) (hdistinct : ps.Distinct)
    (hvalid : (fresh ps).validate ps = .ok ()) (events : List Event) :
    (indexed ps events).validate (indexed ps events).parameters = .ok () := by
  have hprepared := Parameters.typed_prepareParameters htyped hdistinct .scaling
  have hfit := not_or.1 ((refuses_validate (fresh ps) htyped.comparable).ok_iff.1 hvalid)
  apply (refuses_validate (indexed ps events) hprepared.comparable).ok_iff.2
  refine not_or.2 ⟨Parameters.not_unfit_prepareParameters htyped hdistinct .scaling hfit.1, ?_⟩
  rintro ⟨hnone, -⟩
  cases hnone

theorem cutoff_prepare (htyped : ps.Typed) (hdistinct : ps.Distinct) (m : Method) :
    ((fresh ps).prepare m).parameters.cutoff = .proper (some ps.cutoffInForce) := by
  obtain ⟨options, hprepare⟩ := Parameters.prepareParameters_eq htyped hdistinct m
  exact congrArg Parameters.cutoff hprepare

section

variable {events : List Event} (htyped : ps.Typed) (hdistinct : ps.Distinct)
  (hevents : ∀ e ∈ events, e.Encodable) (hvalid : (fresh ps).validate ps = .ok ())

include htyped hdistinct hevents hvalid

theorem trainEvents_of_refused (hrefused : RefusesValues ps events) :
    ∃ n, ((fresh ps).trainEvents (.ofList events : Drain ε Event)).result = .error (.negative n) ∧
      ((fresh ps).trainEvents (.ofList events : Drain ε Event)).trainer =
        (fresh ps).prepare .scaling := by
  obtain ⟨ix, hix, hbuild⟩ := buildIndex_of_valid (ε := ε) htyped hdistinct hvalid
  have hcutoff := cutoff_prepare htyped hdistinct .scaling
  obtain ⟨n, hn⟩ := Indexing.ofEvents_of_negative (s := ⟨ix, ps.cutoffInForce, true⟩)
    ((refusesValues_iff hix events).1 hrefused)
  have hbuilt : (fresh ps).clear.buildIndex (handed (.ofList events : Drain ε Event)) =
      { result := .error (.negative n), trainer := (fresh ps).prepare .scaling } := by
    rw [handed_ofList hevents]
    exact (hbuild _).trans (index_of_error hcutoff hn)
  obtain ⟨hresult, htrainer⟩ := trainEvents_of_built_error hvalid (congrArg Outcome.result hbuilt)
  exact ⟨n, hresult, htrainer.trans (congrArg Outcome.trainer hbuilt)⟩

theorem trainEvents_of_indexed (hrefused : ¬ RefusesValues ps events) :
    ∃ ix i, ps.indexer = .proper ix.name ∧
      Indexing.ofEvents ⟨ix, ps.cutoffInForce, true⟩ events = .ok i ∧
      i.index.labels = Indexing.keptLabels ps.cutoffInForce events ∧
      ((fresh ps).trainEvents (.ofList events : Drain ε Event)).result =
        ((indexed ps events).trainOn i.index : Outcome ε Trained).result ∧
      ((fresh ps).trainEvents (.ofList events : Drain ε Event)).trainer =
        ((indexed ps events).trainOn i.index : Outcome ε Trained).trainer := by
  obtain ⟨ix, hix, hbuild⟩ := buildIndex_of_valid (ε := ε) htyped hdistinct hvalid
  have hcutoff := cutoff_prepare htyped hdistinct .scaling
  have hi := Indexing.ofEvents_of_encodable (s := ⟨ix, ps.cutoffInForce, true⟩) hevents
    fun hnegative => hrefused ((refusesValues_iff hix events).2 hnegative)
  have hlabels := congrArg EventIndex.labels
    (Indexing.index_build ⟨ix, ps.cutoffInForce, true⟩ events)
  have hbuilt := (hbuild (.ofList events)).trans (index_of_ok hcutoff hi)
  rw [← handed_ofList hevents] at hbuilt
  have hindexed : ((fresh ps).buildIndex (handed (.ofList events : Drain ε Event))).trainer.digest
      (.ofList events : Drain ε Event) = indexed ps events := by
    rw [hbuilt, digest_ofList _ hevents]
    have hempty : ((fresh ps).prepare .scaling).report = .empty := rfl
    simp only [hempty, Table.empty_union, Indexing.report_build, hlabels, insert_digest]
    rfl
  obtain ⟨hresult, htrainer⟩ := trainEvents_of_built_ok hvalid (congrArg Outcome.result hbuilt)
  have hclear : (fresh ps).clear = fresh ps := rfl
  rw [hclear, hindexed] at hresult htrainer
  exact ⟨ix, _, hix, hi, hlabels, hresult, htrainer⟩

theorem trainEvents_of_many (hrefused : ¬ RefusesValues ps events)
    (hmany : ¬ Indexing.OneOutcome ps.cutoffInForce events) :
    ∃ ix i, ps.indexer = .proper ix.name ∧
      Indexing.ofEvents ⟨ix, ps.cutoffInForce, true⟩ events = .ok i ∧
      ((fresh ps).trainEvents (.ofList events : Drain ε Event)).result =
        ((indexed ps events).runMethod .scaling i.index : Outcome ε Trained).result ∧
      ((fresh ps).trainEvents (.ofList events : Drain ε Event)).trainer =
        ((indexed ps events).runMethod .scaling i.index : Outcome ε Trained).trainer := by
  obtain ⟨ix, i, hix, hi, hlabels, hresult, htrainer⟩ :=
    trainEvents_of_indexed (ε := ε) htyped hdistinct hevents hvalid hrefused
  have htwo : 2 ≤ i.index.labels.length := by
    by_contra hfew
    apply hmany
    rw [← Indexing.length_keptLabels_le_one, ← hlabels]
    omega
  have hmethod : (indexed ps events).method? = .ok .scaling := rfl
  rw [trainOn_of_many (validate_indexed htyped hdistinct hvalid events) htwo hmethod] at hresult htrainer
  exact ⟨ix, i, hix, hi, hresult, htrainer⟩

end

/-- How training from events ends: in the first of the phases that does not let it pass. -/
structure EndsInPhase (ps : Parameters) (events : List Event) (o : Outcome ε Trained) : Prop where
  invalid : ∀ e, (fresh ps).validate ps = .error e →
    (∃ c, e = .configuration c) ∧ o.result = .error (.parameter e) ∧ o.trainer = fresh ps ∧
      o.unread = events ∧ o.asked = false
  negative : (fresh ps).validate ps = .ok () → RefusesValues ps events →
    (∃ n, o.result = .error (.negative n)) ∧ o.trainer.runs = 0
  insufficient : (fresh ps).validate ps = .ok () → ¬ RefusesValues ps events →
    Indexing.OneOutcome ps.cutoffInForce events →
      o.result = .error .insufficient ∧ o.trainer.runs = 0 ∧
        o.trainer.report.entries = corpusReport ps.cutoffInForce events
  method : (fresh ps).validate ps = .ok () → ¬ RefusesValues ps events →
    ¬ Indexing.OneOutcome ps.cutoffInForce events →
      o.trainer.runs = 1 ∧ ∃ ix i, ps.indexer = .proper ix.name ∧
        Indexing.ofEvents ⟨ix, ps.cutoffInForce, true⟩ events = .ok i ∧
        o.result = ((Method.scaling.train 0 (prepareParameters .scaling ps) i.index).1.mapError
          .method).map (fun r => { r with report := o.trainer.report }) ∧
        o.trainer.report.get? "Training-Eventhash" = some (.string (Event.hexSum events))

theorem nodup_corpusKeys : corpusKeys.Nodup := by decide

/-- Training of a fresh trainer ends in the first phase that does not let it pass: the check of the
parameters, the check of the values, the count of the outcomes, or the one run of the method. -/
theorem trainEvents_phases (htyped : ps.Typed) (hdistinct : ps.Distinct) {events : List Event}
    (hevents : ∀ e ∈ events, e.Encodable) :
    EndsInPhase ps events ((fresh ps).trainEvents (.ofList events : Drain ε Event)) where
  invalid e he := by
    have hrefused : (fresh ps).trainEvents (.ofList events : Drain ε Event) =
        .refused e (fresh ps) events := trainEvents_of_invalid he _
    rw [hrefused]
    refine ⟨?_, rfl, rfl, rfl, rfl⟩
    rcases refuses_validate (fresh ps) htyped.comparable with ⟨-, c, hc⟩ | ⟨-, hok⟩
    · rw [hc] at he
      exact ⟨c, (Except.error.inj he).symm⟩
    · rw [hok] at he
      cases he
  negative hvalid hrefused := by
    obtain ⟨n, hresult, htrainer⟩ :=
      trainEvents_of_refused (ε := ε) htyped hdistinct hevents hvalid hrefused
    exact ⟨⟨n, hresult⟩, congrArg Trainer.runs htrainer⟩
  insufficient hvalid hrefused hone := by
    obtain ⟨ix, i, -, -, hlabels, hresult, htrainer⟩ :=
      trainEvents_of_indexed (ε := ε) htyped hdistinct hevents hvalid hrefused
    have hfew : i.index.labels.length ≤ 1 := by
      rw [hlabels]
      exact Indexing.length_keptLabels_le_one.2 hone
    have hkeys : ((corpusReport ps.cutoffInForce events).map Prod.fst).Nodup := nodup_corpusKeys
    rw [trainOn_of_few (validate_indexed htyped hdistinct hvalid events) hfew] at hresult htrainer
    rw [hresult, htrainer]
    exact ⟨rfl, rfl, Table.entries_ofList hkeys⟩
  method hvalid hrefused hmany := by
    obtain ⟨ix, i, hix, hi, hresult, htrainer⟩ :=
      trainEvents_of_many (ε := ε) htyped hdistinct hevents hvalid hrefused hmany
    have hkeys : ((corpusReport ps.cutoffInForce events).map Prod.fst).Nodup := nodup_corpusKeys
    rw [hresult, htrainer, get?_report_runMethod _ _ (by decide)]
    refine ⟨runs_runMethod _ _ _, ix, i, hix, hi, result_runMethod _ _ _, ?_⟩
    rw [Table.get?_eq_some_iff, indexed, Table.entries_ofList hkeys]
    exact List.mem_append_right _ List.mem_cons_self

theorem trainEvents_phases_twoEvents : Parameters.Typed {} ∧ Parameters.Distinct {} ∧
    (∀ e ∈ twoEvents, e.Encodable) ∧
    ((fresh {}).trainEvents (.ofList twoEvents : Drain Empty Event)).result = .error .insufficient := by
  have hdistinct : Parameters.Distinct {} := by decide
  have hevents : ∀ e ∈ twoEvents, e.Encodable := by decide
  have hone : Indexing.OneOutcome (Parameters.cutoffInForce {}) twoEvents :=
    Indexing.length_keptLabels_le_one.1 (by decide)
  have hphases := trainEvents_phases (ε := Empty) Parameters.typed_default hdistinct hevents
  refine ⟨Parameters.typed_default, hdistinct, hevents, ?_⟩
  exact (hphases.insufficient rfl (by rintro ⟨hindexer, -⟩; cases hindexer) hone).1

/-- A mapping that gives the cutoff twice, under its property and under its name. -/
def clashing : Table Text Json := .ofList [("Cutoff", .int 6), ("cutoff", .int 1)]

def clashed : Parameters :=
  { cutoff := .proper (some 6), options := .ofList [("cutoff", .int 1)] }

theorem runs_trainEvents_clashed :
    ((fresh clashed).trainEvents (.ofList twoEvents : Drain Empty Event)).trainer.runs = 1 := by
  have hevents : ∀ e ∈ twoEvents, e.Encodable := by decide
  have hi : Indexing.ofEvents ⟨.onePass, 1, true⟩ twoEvents =
      .ok (Indexing.build ⟨.onePass, 1, true⟩ twoEvents twoEvents) := rfl
  -- The cutoff is no longer six here, but the one that the option holds.
  have hbuild : (fresh clashed).buildIndex (.ofList twoEvents : Drain (TrainingError Empty) Event) =
      ((fresh clashed).prepare .scaling).index .onePass true (.ofList twoEvents) := rfl
  have hbuilt := hbuild.trans (index_of_ok rfl hi)
  rw [← handed_ofList hevents] at hbuilt
  have hvalid : (fresh clashed).validate clashed = .ok () := rfl
  obtain ⟨-, htrainer⟩ := trainEvents_of_built_ok (t := fresh clashed) hvalid
    (congrArg Outcome.result hbuilt)
  have hlabels : 2 ≤ (Indexing.build ⟨.onePass, 1, true⟩ twoEvents twoEvents).index.labels.length := by
    rw [Indexing.index_build]
    decide
  have hclear : (fresh clashed).clear = fresh clashed := rfl
  rw [htrainer, hclear, hbuilt, trainOn_of_many (m := .scaling) rfl hlabels rfl, runs_runMethod]
  rfl

theorem not_endsInPhase_clashed : Parameters.ofMapping clashing = .ok clashed ∧ clashed.Typed ∧
    (∀ e ∈ twoEvents, e.Encodable) ∧
    ¬ EndsInPhase clashed twoEvents ((fresh clashed).trainEvents (.ofList twoEvents : Drain Empty Event)) := by
  have hmapping : Parameters.ofMapping clashing = .ok clashed := rfl
  have hone : Indexing.OneOutcome clashed.cutoffInForce twoEvents :=
    Indexing.length_keptLabels_le_one.1 (by decide)
  refine ⟨hmapping, Parameters.typed_ofMapping hmapping, by decide, fun h => ?_⟩
  have hruns := (h.insufficient rfl (by rintro ⟨hindexer, -⟩; cases hindexer) hone).2.1
  rw [runs_trainEvents_clashed] at hruns
  cases hruns

end Trainer

end MaxEnt
