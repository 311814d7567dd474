import TrustedDcr.Dcr.Intermediate
import TrustedDcr.Dcr.Semantics

/-!
# The ids of the event records

A record is filed under a key and carries an id; the loops of `is_event_enabled`
and `set_event_executed` look relations up under the id. No operation writes an
id, so the two agree for as long as no operation enters a record for a key other
than the zero id.
-/

namespace TrustedDcr.Dcr
open TrustedDcr.Msg

namespace DcrWorkflow

/-- Every record carries the key it is filed under. -/
def KeepsIds (w : DcrWorkflow) : Prop := ∀ k ∈ w.eventStore, (w.event k).id = k

/-- What a key without a record reads as. -/
theorem id_event_of_not_mem {w : DcrWorkflow} {k : Uid} (h : k ∉ w.eventStore) :
    (w.event k).id = emptyUid := by
  rw [event, Std.ExtTreeMap.getD_eq_fallback h]
  rfl

/-- The keys under which the own id is found. -/
theorem KeepsIds.id_event_iff {w : DcrWorkflow} (own : w.KeepsIds) (k : Uid) :
    (w.event k).id = k ↔ k ∈ w.eventStore ∨ k = emptyUid := by
  by_cases hk : k ∈ w.eventStore
  · simp [hk, own k hk]
  · simp [hk, id_event_of_not_mem hk, eq_comm]

/-! ### No operation writes an id -/

private theorem id_event_modifyEvent {f : DcrEvent → DcrEvent} (hf : ∀ e, (f e).id = e.id)
    (w : DcrWorkflow) (k a : Uid) : ((w.modifyEvent k f).event a).id = (w.event a).id := by
  rw [event_modifyEvent]
  split
  · exact hf _
  · rfl

private theorem id_event_foldl_modifyEvent {f : DcrEvent → DcrEvent} (hf : ∀ e, (f e).id = e.id)
    (l : List Uid) (w : DcrWorkflow) (a : Uid) :
    ((l.foldl (fun w x ↦ w.modifyEvent x f) w).event a).id = (w.event a).id := by
  induction l generalizing w with
  | nil => rfl
  | cons x l ih => rw [List.foldl_cons, ih, id_event_modifyEvent hf]

private theorem id_event_setEventExecuted (w : DcrWorkflow) (e a : Uid) :
    ((w.setEventExecuted e).event a).id = (w.event a).id := by
  unfold setEventExecuted
  dsimp only
  rw [id_event_foldl_modifyEvent (by simp), id_event_foldl_modifyEvent (by simp),
    id_event_foldl_modifyEvent (by simp), id_event_modifyEvent (by simp),
    id_event_modifyEvent (by simp)]

private theorem id_event_isEventEnabled (w : DcrWorkflow) (e a : Uid) :
    ((w.isEventEnabled e).2.event a).id = (w.event a).id :=
  congrArg DcrEvent.id ((sameReads_isEventEnabled w e).event a)

private theorem affected_of_sameGraph {w v : DcrWorkflow} (h : SameGraph w v) (e : Uid) :
    v.affected e = w.affected e := by
  unfold affected
  rw [congrArg excludesTo h, congrArg includesTo h, congrArg responsesTo h]

end DcrWorkflow

/-! ### Sequences of calls -/

/-- A call on a workflow. `src/enclave/dcr.h:28–34`. -/
inductive WorkflowCall where
  | isEventEnabled (eventId : Uid)
  | setEventExecuted (eventId : Uid)
  | getLockSet (eventId : Uid)
  | getInformSet (eventId : Uid)
  deriving DecidableEq, Repr

namespace WorkflowCall

/-- The workflow after the call. The two sets are read off the relations. -/
def perform (w : DcrWorkflow) : WorkflowCall → DcrWorkflow
  | .isEventEnabled eventId => (w.isEventEnabled eventId).2
  | .setEventExecuted eventId => w.setEventExecuted eventId
  | .getLockSet _ => w
  | .getInformSet _ => w

/-- The event under whose record's id the call looks relations up. -/
def asked : WorkflowCall → Option Uid
  | .isEventEnabled eventId => some eventId
  | .setEventExecuted eventId => some eventId
  | .getLockSet _ => none
  | .getInformSet _ => none

/-- The events that the call leaves with a record. -/
def entered (w : DcrWorkflow) : WorkflowCall → List Uid
  | .isEventEnabled eventId => [eventId]
  | .setEventExecuted eventId => eventId :: w.affected (w.event eventId).id
  | .getLockSet _ => []
  | .getInformSet _ => []

private theorem asked_mem_entered {call : WorkflowCall} {e : Uid} (h : e ∈ call.asked)
    (w : DcrWorkflow) : e ∈ call.entered w := by
  cases call with
  | isEventEnabled eventId =>
    obtain rfl : eventId = e := by simpa [asked] using h
    exact List.mem_singleton_self _
  | setEventExecuted eventId =>
    obtain rfl : eventId = e := by simpa [asked] using h
    exact List.mem_cons_self
  | getLockSet eventId => simp [asked] at h
  | getInformSet eventId => simp [asked] at h

end WorkflowCall

/-- What calls have made of a workflow: the ids and the relations are as before, and the events
that the calls enter have joined the store. -/
structure Entered (w : DcrWorkflow) (calls : List WorkflowCall) (v : DcrWorkflow) : Prop where
  graph : w.SameGraph v
  ids : ∀ a, (v.event a).id = (w.event a).id
  events : ∀ a, a ∈ v.eventStore ↔ a ∈ w.eventStore ∨ ∃ call ∈ calls, a ∈ call.entered w

namespace Entered

variable {w v : DcrWorkflow} {calls : List WorkflowCall}

private theorem nil (w : DcrWorkflow) : Entered w [] w := ⟨.refl w, fun _ ↦ rfl, by simp⟩

private theorem sourced (h : Entered w calls v) (sourced : w.Sourced) : v.Sourced :=
  sourced.of_sameGraph h.graph fun a ha ↦ (h.events a).mpr (Or.inl ha)

/-- A call enters the same events now as it would have at first. -/
theorem entered_eq (h : Entered w calls v) (call : WorkflowCall) :
    call.entered v = call.entered w := by
  cases call with
  | isEventEnabled eventId => rfl
  | setEventExecuted eventId =>
    simp only [WorkflowCall.entered, h.ids, DcrWorkflow.affected_of_sameGraph h.graph]
  | getLockSet eventId => rfl
  | getInformSet eventId => rfl

/-- What one call does. -/
theorem single (sourced : w.Sourced) (call : WorkflowCall) : Entered w [call] (call.perform w) := by
  cases call with
  | isEventEnabled e =>
    refine ⟨(DcrWorkflow.sameReads_isEventEnabled w e).graph,
      DcrWorkflow.id_event_isEventEnabled w e, fun a ↦ ?_⟩
    have hadd := sourced.mem_isEventEnabled e a
    simp only [WorkflowCall.perform, WorkflowCall.entered, hadd, List.mem_singleton,
      exists_eq_left, eq_comm, or_comm]
  | setEventExecuted e =>
    refine ⟨DcrWorkflow.sameGraph_setEventExecuted w e,
      DcrWorkflow.id_event_setEventExecuted w e, fun a ↦ ?_⟩
    have hadd := w.mem_setEventExecuted e a
    simp only [WorkflowCall.perform, hadd, List.mem_singleton, exists_eq_left]
    simp only [WorkflowCall.entered, List.mem_cons, eq_comm]
    tauto
  | getLockSet e =>
    exact ⟨.refl w, fun _ ↦ rfl, by simp [WorkflowCall.perform, WorkflowCall.entered]⟩
  | getInformSet e =>
    exact ⟨.refl w, fun _ ↦ rfl, by simp [WorkflowCall.perform, WorkflowCall.entered]⟩

/-- One more call. -/
theorem perform (h : Entered w calls v) (sourced : w.Sourced) (call : WorkflowCall) :
    Entered w (calls ++ [call]) (call.perform v) := by
  have hcall := single (h.sourced sourced) call
  refine ⟨h.graph.trans hcall.graph, fun a ↦ (hcall.ids a).trans (h.ids a), fun a ↦ ?_⟩
  rw [hcall.events, h.events]
  simp only [List.mem_append, List.mem_singleton, exists_eq_left, h.entered_eq call, or_assoc,
    or_and_right, exists_or]

/-- Any number of calls. -/
theorem foldl (sourced : w.Sourced) (calls : List WorkflowCall) :
    Entered w calls (calls.foldl WorkflowCall.perform w) := by
  induction calls using List.reverseRecOn with
  | nil => exact nil w
  | append_singleton calls call ih =>
    rw [List.foldl_append]
    exact ih.perform sourced call

end Entered

/-- Throughout the calls every record carries its key, and each call looks relations up under the
event it was asked about. -/
structure OwnsAlong (w : DcrWorkflow) (calls : List WorkflowCall) : Prop where
  keepsIds : ∀ before, before <+: calls → (before.foldl WorkflowCall.perform w).KeepsIds
  asked : ∀ before call, before ++ [call] <+: calls → ∀ e ∈ call.asked,
    ((before.foldl WorkflowCall.perform w).event e).id = e

/-- The calls may enter the zero id and what has a record to begin with, and nothing else. -/
theorem ownsAlong_iff {w : DcrWorkflow} (own : w.KeepsIds) (sourced : w.Sourced)
    (calls : List WorkflowCall) : OwnsAlong w calls ↔
      ∀ call ∈ calls, ∀ a ∈ call.entered w, a ∈ w.eventStore ∨ a = emptyUid := by
  constructor
  · intro along call hcall a ha
    have h := Entered.foldl sourced calls
    have hmem := (h.events a).mpr (Or.inr ⟨call, hcall, ha⟩)
    rw [← own.id_event_iff, ← h.ids]
    exact along.keepsIds calls (List.prefix_refl calls) a hmem
  · intro harmless
    constructor
    · intro before hbefore k hk
      have h := Entered.foldl sourced before
      rw [h.ids, own.id_event_iff]
      rcases (h.events k).mp hk with hk | ⟨call, hcall, hk⟩
      · exact Or.inl hk
      · exact harmless call (hbefore.subset hcall) k hk
    · intro before call hbefore e he
      have h := Entered.foldl sourced before
      have hcall : call ∈ calls := hbefore.subset (by simp)
      rw [h.ids, own.id_event_iff]
      exact harmless call hcall e (WorkflowCall.asked_mem_entered he w)

/-! ### Flat workflows -/

namespace DcrWorkflow

/-- Conditions and milestones are the sources of relations, which start in the store. -/
theorem Flat.sourced {w : DcrWorkflow} (h : w.Flat) : w.Sourced := by
  have known {fwd bwd : Relation} (starts : fwd.StartsIn w.eventStore) (mirror : Mirror fwd bwd)
      (e x : Uid) (hx : x ∈ bwd.getD e []) : x ∈ w.eventStore := by
    by_contra hnone
    have hcount := mirror x e
    rw [starts x hnone, List.count_nil] at hcount
    exact List.count_eq_zero.mp hcount hx
  exact ⟨known h.conditions h.conditionsFrom, known h.milestones h.milestonesFrom⟩

/-- The order of the inverse lists decides nothing. -/
theorem SameLists.ownsAlong_iff {v w : DcrWorkflow} (h : v.SameLists w) (flat : w.Flat)
    (calls : List WorkflowCall) : OwnsAlong v calls ↔
      ∀ call ∈ calls, ∀ a ∈ call.entered w, a ∈ w.eventStore ∨ a = emptyUid := by
  have own : v.KeepsIds := fun k hk ↦ by
    rw [h.event]
    exact flat.own k (h.eventStore ▸ hk)
  have sourced : v.Sourced := by
    constructor
    · intro e x hx
      rw [h.eventStore]
      exact flat.sourced.conditions e x ((h.conditionsFrom e).mem_iff.mp hx)
    · intro e x hx
      rw [h.eventStore]
      exact flat.sourced.milestones e x ((h.milestonesFrom e).mem_iff.mp hx)
  have entered (call : WorkflowCall) : call.entered v = call.entered w := by
    cases call with
    | isEventEnabled eventId => rfl
    | setEventExecuted eventId =>
      simp only [WorkflowCall.entered, affected, h.event, h.excludesTo, h.includesTo,
        h.responsesTo]
    | getLockSet eventId => rfl
    | getInformSet eventId => rfl
  rw [Dcr.ownsAlong_iff own sourced, h.eventStore]
  simp only [entered]

end DcrWorkflow

end TrustedDcr.Dcr
