import MaxEnt.Index.Indexer
import MaxEnt.Proofs.Json.Shown
import MaxEnt.Proofs.Text.Lines

namespace MaxEnt

def Event.Unpaired (e : Event) : Prop :=
  ModifiedUtf8.Unpaired e.outcome ∧ ∀ name ∈ e.context, ModifiedUtf8.Unpaired name

instance (e : Event) : Decidable e.Unpaired := inferInstanceAs (Decidable (_ ∧ _))

theorem Event.plain_context (e : Event) :
    { e with features := .plain e.context } = Indexing.prepare false e := by
  obtain ⟨outcome, features⟩ := e
  cases features <;> rfl

namespace Spool

theorem mapM_text?_strings (ts : List Text) : (ts.map Json.string).mapM text? = some ts :=
  Numeral.mapM_map_eq_some fun _ _ => rfl

theorem event?_line {e : Event} (h : e.Unpaired) :
    event? (line e) = some { e with features := .plain e.context } := by
  have hreadable : (Json.array [.string e.outcome, .ofTexts e.context]).Readable Json.maxDepth := by
    simp only [Json.Readable, Json.ReadableItems, and_true]
    exact ⟨by decide, h.1, Json.readable_ofTexts h.2⟩
  rw [event?, line, Json.parse_text hreadable]
  simp only [Json.ofTexts, mapM_text?_strings, Option.map_some]

theorem ascii_line (e : Event) : (line e).Ascii := Json.ascii_text _

theorem replay_eq_filterMap (events : List Event) :
    replay events = events.filterMap fun e => event? (line e) := by
  have hline : ∀ l ∈ events.map line, l.Ascii := List.forall_mem_map.2 fun e _ => ascii_line e
  obtain ⟨bytes, hbytes, hlines⟩ := Lines.ofBytes_ended
    (fun l hl => (hline l hl).not_mem (by decide)) (fun l hl => (hline l hl).not_mem (by decide))
    fun l hl => (hline l hl).hasSurrogate
  have hfile : file events = bytes := by
    rw [Text.ended, List.flatMap_map] at hbytes
    rw [file, hbytes]
    rfl
  rw [replay, hfile, hlines, List.filterMap_map]
  rfl

theorem replay_eq {events : List Event} (h : ∀ e ∈ events, e.Unpaired) :
    replay events = events.map (Indexing.prepare false) := by
  have hread : ∀ e ∈ events, event? (line e) = some (Indexing.prepare false e) := by
    intro e he
    rw [event?_line (h e he), Event.plain_context]
  rw [replay_eq_filterMap, ← List.filterMap_eq_map]
  exact List.filterMap_congr hread

end Spool

namespace Indexing

theorem prepare_prepare (keepsValues : Bool) (e : Event) :
    prepare keepsValues (prepare keepsValues e) = prepare keepsValues e := by
  obtain ⟨outcome, features⟩ := e
  cases keepsValues with
  | true => cases features <;> rfl
  | false => cases features <;> rfl

theorem build_map_prepare (s : IndexSettings) (counted kept : List Event) :
    build s counted (kept.map (prepare s.indexer.keepsValues)) = build s counted kept := by
  have hprepare : (kept.map (prepare s.indexer.keepsValues)).map (prepare s.indexer.keepsValues) =
      kept.map (prepare s.indexer.keepsValues) := by
    rw [List.map_map]
    exact List.map_congr_left fun e _ => prepare_prepare _ e
  simp only [build, hprepare, List.length_map]

/-- Two readings give what one gives: the index, the report and the number of dropped events, of
which a warning tells. -/
theorem ofEvents_twoPass (cutoff : Int) (sort : Bool) {events : List Event}
    (h : ∀ e ∈ events, e.Unpaired) :
    ∃ i, ofEvents ⟨.onePass, cutoff, sort⟩ events = .ok i ∧
      ofEvents ⟨.twoPass, cutoff, sort⟩ events = .ok i := by
  refine ⟨build ⟨.onePass, cutoff, sort⟩ events events, rfl, ?_⟩
  have hreplay := Spool.replay_eq h
  have hbuild := build_map_prepare ⟨.twoPass, cutoff, sort⟩ events events
  rw [ofEvents, hreplay]
  exact congrArg Except.ok hbuild

/-- Events with an empty outcome, line breaks, a control character, a surrogate alone and values. -/
def oddEvents : List Event :=
  [⟨[], .plain ["a\nb", [0xD800], []]⟩, ⟨"x\r", .valued [([0xDC00, 0xD800], .one), ([1], .zero)]⟩]

theorem ofEvents_twoPass_oddEvents :
    (∀ e ∈ oddEvents, e.Unpaired) ∧
      ∃ i, ofEvents ⟨.onePass, 1, true⟩ oddEvents = .ok i ∧
        ofEvents ⟨.twoPass, 1, true⟩ oddEvents = .ok i := by
  have h : ∀ e ∈ oddEvents, e.Unpaired := by decide
  exact ⟨h, ofEvents_twoPass 1 true h⟩

end Indexing

end MaxEnt
