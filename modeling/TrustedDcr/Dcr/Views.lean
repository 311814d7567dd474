import TrustedDcr.Dcr.Semantics
import TrustedDcr.Theory.DcrViews

/-!
# Who is informed needlessly

`get_inform_set` decides which clusters log an execution. It leaves no affected
cluster out, and adds only those whose event waits for a target of a response: the
lock set takes in everything such a target constrains, conditions included, although
a response changes nothing that a condition is about.
-/

namespace TrustedDcr.Dcr
open TrustedDcr.Msg TrustedDcr.Theory.Dcr

namespace DcrWorkflow

/-- The two workflows hold the same marks of `f` and answer alike whether it is enabled. -/
def SeesSame (f : Uid) (w v : DcrWorkflow) : Prop :=
  (w.event f).executed = (v.event f).executed ∧ (w.event f).pending = (v.event f).pending ∧
    (w.event f).excluded = (v.event f).excluded ∧ (w.isEventEnabled f).1 = (v.isEventEnabled f).1

/-- What `f` sees of a workflow is its view of the marking. -/
theorem WellFormed.seesSame_iff {w v : DcrWorkflow} {declared : List Uid}
    (hw : w.WellFormed declared) (hv : v.WellFormed declared) (graph : v.graph = w.graph) {f : Uid}
    (hf : f ∈ declared) : w.SeesSame f v ↔ SameView w.graph f w.marking v.marking := by
  have enabled : (w.isEventEnabled f).1 = (v.isEventEnabled f).1 ↔
      (Enabled w.graph w.marking f ↔ Enabled w.graph v.marking f) := by
    rw [Bool.eq_iff_iff, isEventEnabled_iff hw hf, isEventEnabled_iff hv hf, graph]
  constructor
  · rintro ⟨executed, pending, excluded, same⟩
    exact ⟨Bool.eq_iff_iff.mp executed, Bool.eq_iff_iff.mp pending, Bool.eq_iff_iff.mp excluded,
      enabled.mp same⟩
  · intro view
    exact ⟨Bool.eq_iff_iff.mpr view.executed, Bool.eq_iff_iff.mpr view.pending,
      Bool.eq_iff_iff.mpr view.excluded, enabled.mpr view.enabled⟩

/-- The records after their marks are replaced. -/
theorem event_withMarks (w : DcrWorkflow) (m : Uid → Marks) (k : Uid) :
    (w.withMarks m).event k = if k ∈ w.eventStore then
      { w.event k with executed := (m k).executed, excluded := (m k).excluded,
                       pending := (m k).pending } else zeroEvent := by
  unfold event withMarks
  simp only [Std.ExtTreeMap.getD_eq_getD_getElem?, Std.ExtTreeMap.getElem?_map,
    Std.ExtTreeMap.mem_iff_isSome_getElem?]
  cases w.eventStore[k]? <;> rfl

open Classical in
/-- Every marking of recorded events can be held. -/
theorem exists_withMarks (w : DcrWorkflow) {m : Marking Uid}
    (within : Within {k | k ∈ w.eventStore} m) : ∃ marks, (w.withMarks marks).marking = m := by
  let marks (k : Uid) : Marks := ⟨k ∈ m.executed, k ∈ m.excluded, k ∈ m.pending⟩
  obtain ⟨executed, pending, excluded⟩ := within
  have holds (s : Set Uid) (sub : s ⊆ {k | k ∈ w.eventStore}) (field : DcrEvent → Bool)
      (zero : field zeroEvent = false)
      (mark : ∀ k ∈ w.eventStore, field ((w.withMarks marks).event k) = true ↔ k ∈ s) :
      {k | field ((w.withMarks marks).event k) = true} = s := by
    ext k
    by_cases hk : k ∈ w.eventStore
    · exact mark k hk
    · rw [Set.mem_ofPred_eq, event_withMarks, if_neg hk, zero]
      exact iff_of_false Bool.noConfusion fun h ↦ hk (sub h)
  refine ⟨marks, Marking.ext ?_ ?_ ?_⟩
  · exact holds _ executed DcrEvent.executed rfl fun k hk ↦ by simp [event_withMarks, hk, marks]
  · exact holds _ pending DcrEvent.pending rfl fun k hk ↦ by simp [event_withMarks, hk, marks]
  · exact holds _ excluded DcrEvent.excluded rfl fun k hk ↦ by simp [event_withMarks, hk, marks]

end DcrWorkflow

open DcrWorkflow

/-- Another event is informed exactly if some marking lets the execution change what it sees, or if
a target of a response is a condition for it. `src/enclave/dcr.cpp:40–73`. -/
theorem mem_getInformSet_iff_sees {wf : IntermediateDcrWorkflow}
    (named : ∀ e ∈ wf.events, e ∈ wf.eventIds) {e f : Uid} (he : e ∈ wf.eventIds)
    (hf : f ∈ wf.eventIds) (ne : f ≠ e) :
    let w := makeWorkflow wf
    f ∈ w.getInformSet e ↔
      (∃ m : Uid → Marks, ¬(w.withMarks m).SeesSame f ((w.withMarks m).setEventExecuted e)) ∨
        ∃ t ∈ w.responsesTo.getD e [], f ∈ w.conditionsTo.getD t [] := by
  intro w
  have hw : w.WellFormed wf.eventIds := makeWorkflow_wellFormed wf
  have sees (m : Uid → Marks) :
      (w.withMarks m).SeesSame f ((w.withMarks m).setEventExecuted e) ↔
        SameView w.graph f (w.withMarks m).marking (execute w.graph (w.withMarks m).marking e) := by
    have hm := hw.withMarks m
    rw [hm.seesSame_iff (hm.setEventExecuted he) (sameGraph_setEventExecuted _ e).graph_eq hf,
      marking_setEventExecuted _ e (hm.own e he)]
    rfl
  have constraints : ∀ t, f ∈ w.graph.conditions t ∪ w.graph.milestones t → t ∈ w.eventStore := by
    intro t ht
    obtain ⟨conditions, milestones⟩ := makeWorkflow_from wf
    obtain ht | ht := ht
    · exact mem_makeWorkflow_of_declared (named t (conditions f t ((hw.conditions t f).mpr ht)))
    · exact mem_makeWorkflow_of_declared (named t (milestones f t ((hw.milestones t f).mpr ht)))
  rw [mem_getInformSet, mem_informSet_iff]
  refine or_congr_left ⟨fun affected ↦ ?_, ?_⟩
  · obtain ⟨m, within, changed⟩ :=
      exists_not_sameView constraints (mem_makeWorkflow_of_declared hf) affected
    obtain ⟨marks, rfl⟩ := w.exists_withMarks within
    exact ⟨marks, fun h ↦ changed ((sees marks).mp h)⟩
  · rintro ⟨m, changed⟩
    by_contra unaffected
    exact changed ((sees m).mpr (sameView_execute ne unaffected _))

/-- The meeting is informed of a proposal, and not as the condition of the acceptance it demands. -/
theorem proposal_changes_meeting :
    let w := makeWorkflow wfDuDe
    ∃ m : Uid → Marks,
      ¬(w.withMarks m).SeesSame ⟨0, 5⟩ ((w.withMarks m).setEventExecuted ⟨0, 1⟩) := by
  intro w
  have informed := @mem_getInformSet_iff_sees wfDuDe (by decide) ⟨0, 1⟩ ⟨0, 5⟩
    (by decide) (by decide) (by decide)
  exact (informed.mp (by decide +kernel)).resolve_right (by decide +kernel)

end TrustedDcr.Dcr
