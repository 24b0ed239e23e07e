import MaxEnt.Proofs.Index.Reading
import MaxEnt.Proofs.Training.Operation
import MaxEnt.Proofs.Training.Trained

namespace MaxEnt

namespace Table

variable {κ α : Type} [DecidableEq κ]

theorem empty_union (t : Table κ α) : empty.union t = t := ofList_entries t

theorem insertAll_ofList (es more : List (κ × α)) :
    (ofList es).insertAll more = ofList (es ++ more) := by
  rw [ofList, ofList, insertAll, insertAll, insertAll, List.foldl_append]

theorem get?_insertAll_of_not_mem (t : Table κ α) {es : List (κ × α)} {key : κ}
    (h : key ∉ es.map Prod.fst) : (t.insertAll es).get? key = t.get? key := by
  have hnone : (ofList es).get? key = none := by
    rw [← Option.not_isSome_iff_eq_none, isSome_get?_ofList]
    exact h
  rw [get?_insertAll, ← get?_ofList, hnone, Option.none_or]

theorem keys_ofList {es : List (κ × α)} (h : (es.map Prod.fst).Nodup) :
    (ofList es).keys = es.map Prod.fst := by
  rw [keys, entries_ofList h]

end Table

namespace Trainer

variable {ε : Type} {t : Trainer} {m : Method}

theorem handed_ofList {events : List Event} (h : ∀ e ∈ events, e.Encodable) :
    handed (.ofList events : Drain ε Event) = .ofList events := by
  rw [handed, HashStream.drain_of_encodable h]
  rfl

theorem digest_ofList (t : Trainer) {events : List Event} (h : ∀ e ∈ events, e.Encodable) :
    t.digest (.ofList events : Drain ε Event) =
      { t with report := t.report.insert "Training-Eventhash" (.string (Event.hexSum events)) } := by
  have hdrain := @HashStream.drain_of_encodable ε (.ofList events) h
  have hsum := HashStream.hexSum?_exhausted (ε := ε) events
  rw [digest, hdrain]
  simp only [Drain.ofList, Option.isNone_none, hsum, Option.getD_some]

def digestEntry (events : List Event) : Text × Json :=
  ("Training-Eventhash", .string (Event.hexSum events))

theorem insert_digest (es : List (Text × Json)) (events : List Event) :
    (Table.ofList es).insert "Training-Eventhash" (.string (Event.hexSum events)) =
      .ofList (es ++ [digestEntry events]) := by
  rw [← Table.insertAll_ofList]
  rfl

def corpusKeys : List Text :=
  ["Number of Event Tokens", "Number of Outcomes", "Number of Predicates", "Training-Eventhash"]

theorem keys_counts (tokens outcomes predicates : Nat) (events : List Event) :
    (Indexing.counts tokens outcomes predicates ++ [digestEntry events]).map Prod.fst = corpusKeys := rfl

/-- What is reported of events that are indexed with this cutoff: counts, and the digest. -/
def corpusReport (cutoff : Int) (events : List Event) : List (Text × Json) :=
  Indexing.counts events.length (Indexing.keptLabels cutoff events).length
    (Indexing.keptNames cutoff events).length ++ [digestEntry events]

def trainedReport (steps likelihood : Text) (algorithm : Json) : List (Text × Json) :=
  Method.scalingReport steps likelihood ++ provenance algorithm
where
  provenance (algorithm : Json) : List (Text × Json) :=
    [("Algorithm", algorithm), ("TrainerType", .string "Event")]

def trainedKeys : List Text := ["Iterations", "LogLikelihood", "Algorithm", "TrainerType"]

theorem keys_trainedReport (steps likelihood : Text) (algorithm : Json) :
    (trainedReport steps likelihood algorithm).map Prod.fst = trainedKeys := rfl

theorem report_addReport (t : Trainer) (m : Method) (steps likelihood : Text) :
    (t.addReport m (.ofList (Method.scalingReport steps likelihood))).report =
      t.report.insertAll (trainedReport steps likelihood (t.algorithmName m)) := by
  have hentries : (Table.ofList (Method.scalingReport steps likelihood)).entries =
      Method.scalingReport steps likelihood := by
    apply Table.entries_ofList
    have hkeys : (Method.scalingReport steps likelihood).map Prod.fst =
        (["Iterations", "LogLikelihood"] : List Text) := rfl
    rw [hkeys]
    decide
  rw [addReport, Table.union, hentries, trainedReport, Table.insertAll, Table.insertAll,
    List.foldl_append]
  rfl

end Trainer

end MaxEnt
