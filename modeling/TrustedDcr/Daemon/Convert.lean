import TrustedDcr.Dcr.Records

/-!
# The workflow that reaches an enclave

The daemon converts the workflow of a configuration message and hands it to its
enclave in the flat form. `src/sgx_daemon/convert.cpp:25–70`,
`src/sgx_daemon/enclave_handle.h:134–178`. A wire record is the value that its
generated accessors return; an unset field reads as its default. Nothing checks
that the targets of its relations are among its events.
-/

namespace TrustedDcr.Daemon
open TrustedDcr.Msg TrustedDcr.Dcr

/-- `tdcr::network::Uid`. -/
structure WireUid where
  part1 : UInt64
  part2 : UInt64
  deriving DecidableEq, Repr

/-- `tdcr::dcr::Event`. -/
structure WireEvent where
  uid : WireUid
  executed : Bool
  excluded : Bool
  pending : Bool
  excludeRelations : List WireUid
  includeRelations : List WireUid
  responseRelations : List WireUid
  conditionRelations : List WireUid
  milestoneRelations : List WireUid

/-- `tdcr::dcr::Workflow`. -/
structure WireWorkflow where
  events : List WireEvent

/-- `from_wire`. `src/sgx_daemon/convert.cpp:6–10`. -/
def WireUid.fromWire (uid : WireUid) : Uid := ⟨uid.part1, uid.part2⟩

/-- `from_wire`. `src/sgx_daemon/convert.cpp:25–32`. -/
def WireEvent.fromWire (event : WireEvent) : DcrEvent where
  id := event.uid.fromWire
  executed := event.executed
  excluded := event.excluded
  pending := event.pending

/-- What the loop of `from_wire` adds for one event. `src/sgx_daemon/convert.cpp:38–67`. -/
def addWireEvent (wf : DcrWorkflow) (wireEvent : WireEvent) : DcrWorkflow :=
  let event := wireEvent.fromWire
  let wf := { wf with eventStore := wf.eventStore.insert event.id event }
  let wf := wireEvent.excludeRelations.foldl (fun wf target ↦
    { wf with excludesTo := Relation.push wf.excludesTo event.id target.fromWire }) wf
  let wf := wireEvent.includeRelations.foldl (fun wf target ↦
    { wf with includesTo := Relation.push wf.includesTo event.id target.fromWire }) wf
  let wf := wireEvent.responseRelations.foldl (fun wf target ↦
    { wf with responsesTo := Relation.push wf.responsesTo event.id target.fromWire }) wf
  let wf := wireEvent.conditionRelations.foldl (fun wf target ↦
    { wf with
      conditionsTo := Relation.push wf.conditionsTo event.id target.fromWire
      conditionsFrom := Relation.push wf.conditionsFrom target.fromWire event.id }) wf
  wireEvent.milestoneRelations.foldl (fun wf target ↦
    { wf with
      milestonesTo := Relation.push wf.milestonesTo event.id target.fromWire
      milestonesFrom := Relation.push wf.milestonesFrom target.fromWire event.id }) wf

/-- `from_wire`. `src/sgx_daemon/convert.cpp:34–70`. -/
def WireWorkflow.fromWire (workflow : WireWorkflow) : DcrWorkflow :=
  workflow.events.foldl addWireEvent .empty

/-! ### Converted workflows are flat -/

/-- The empty workflow relates nothing. -/
theorem flat_empty : DcrWorkflow.empty.Flat where
  own _ hk := absurd hk Std.ExtTreeMap.not_mem_empty
  excludes _ _ := Std.ExtTreeMap.getD_empty
  includes _ _ := Std.ExtTreeMap.getD_empty
  responses _ _ := Std.ExtTreeMap.getD_empty
  conditions _ _ := Std.ExtTreeMap.getD_empty
  milestones _ _ := Std.ExtTreeMap.getD_empty
  conditionsFrom := .empty
  milestonesFrom := .empty

/-- A record goes in under its own id. -/
theorem flat_insert {w : DcrWorkflow} (h : w.Flat) (event : DcrEvent) :
    DcrWorkflow.Flat { w with eventStore := w.eventStore.insert event.id event } := by
  have starts {r : Relation} (hr : r.StartsIn w.eventStore) :
      r.StartsIn (w.eventStore.insert event.id event) :=
    fun e he ↦ hr e fun h ↦ he ((mem_insert_uid _ _ _ _).mpr (Or.inr h))
  refine ⟨fun k hk ↦ ?_, starts h.excludes, starts h.includes, starts h.responses,
    starts h.conditions, starts h.milestones, h.conditionsFrom, h.milestonesFrom⟩
  have hown := h.own k
  unfold DcrWorkflow.event at hown ⊢
  rw [getD_insert_uid]
  by_cases he : event.id = k
  · rw [if_pos he, he]
  · rw [if_neg he]
    exact hown (((mem_insert_uid _ _ _ _).mp hk).resolve_left he)

/-- The loops over the relations of an event in the store. -/
theorem flat_foldl {w : DcrWorkflow} {s : Uid} {targets : List WireUid}
    {step : DcrWorkflow → WireUid → DcrWorkflow} (hw : w.Flat ∧ s ∈ w.eventStore)
    (keeps : ∀ v t, v.Flat → s ∈ v.eventStore → (step v t).Flat ∧ s ∈ (step v t).eventStore) :
    (targets.foldl step w).Flat ∧ s ∈ (targets.foldl step w).eventStore :=
  foldl_keeps (P := fun w ↦ w.Flat ∧ s ∈ w.eventStore) targets w hw
    fun v t _ hv ↦ keeps v t hv.1 hv.2

private theorem flat_addWireEvent {w : DcrWorkflow} (h : w.Flat) (event : WireEvent) :
    (addWireEvent w event).Flat := by
  refine And.left (b := event.uid.fromWire ∈ (addWireEvent w event).eventStore) ?_
  refine flat_foldl ?_ fun v t hv hs ↦ ⟨{ hv with
    milestones := hv.milestones.push hs _, milestonesFrom := hv.milestonesFrom.push _ _ }, hs⟩
  refine flat_foldl ?_ fun v t hv hs ↦ ⟨{ hv with
    conditions := hv.conditions.push hs _, conditionsFrom := hv.conditionsFrom.push _ _ }, hs⟩
  refine flat_foldl ?_ fun v t hv hs ↦ ⟨{ hv with responses := hv.responses.push hs _ }, hs⟩
  refine flat_foldl ?_ fun v t hv hs ↦ ⟨{ hv with includes := hv.includes.push hs _ }, hs⟩
  refine flat_foldl ?_ fun v t hv hs ↦ ⟨{ hv with excludes := hv.excludes.push hs _ }, hs⟩
  exact ⟨flat_insert h event.fromWire, (mem_insert_uid _ _ _ _).mpr (Or.inl rfl)⟩

private theorem flat_fromWire (workflow : WireWorkflow) : workflow.fromWire.Flat :=
  foldl_keeps workflow.events .empty flat_empty fun _ event _ hv ↦ flat_addWireEvent hv event

/-- The enclave builds the workflow that the daemon converted, but for the order of the inverse
lists, and answers for it alike after any executions. `src/enclave/dcr.cpp:75–241`. -/
theorem configured_workflow_agrees (workflow : WireWorkflow) :
    let d := workflow.fromWire
    let m := makeWorkflow d.createIntermediate
    m.SameLists d ∧ ∀ (executions : List Uid) (e : Uid),
      let d' := executions.foldl DcrWorkflow.setEventExecuted d
      let m' := executions.foldl DcrWorkflow.setEventExecuted m
      (m'.isEventEnabled e).1 = (d'.isEventEnabled e).1 ∧ m'.getLockSet e = d'.getLockSet e ∧
        m'.getInformSet e = d'.getInformSet e := by
  intro d m
  have same : m.SameLists d := (flat_fromWire workflow).sameLists
  refine ⟨same, fun executions e ↦ ?_⟩
  have later := same.foldl_setEventExecuted executions
  exact ⟨later.isEventEnabled_eq e, later.getLockSet_eq e, later.getInformSet_eq e⟩

/-! ### The records of a converted workflow -/

/-- The events whose records an execution of the event writes. -/
def WireEvent.affected (event : WireEvent) : List Uid :=
  (event.excludeRelations ++ event.includeRelations ++ event.responseRelations).map
    WireUid.fromWire

/-- Pairs of a relation, as one event of the message lists its targets. -/
def WireEvent.pairs (event : WireEvent) (targets : List WireUid) : List (Uid × Uid) :=
  targets.map fun target ↦ (event.uid.fromWire, target.fromWire)

/-- Every map at once after one more event. -/
theorem addWireEvent_eq (w : DcrWorkflow) (event : WireEvent) :
    addWireEvent w event =
      { eventStore := w.eventStore.insert event.uid.fromWire event.fromWire
        excludesTo := w.excludesTo.pushAll (event.pairs event.excludeRelations)
        includesTo := w.includesTo.pushAll (event.pairs event.includeRelations)
        responsesTo := w.responsesTo.pushAll (event.pairs event.responseRelations)
        conditionsTo := w.conditionsTo.pushAll (event.pairs event.conditionRelations)
        milestonesTo := w.milestonesTo.pushAll (event.pairs event.milestoneRelations)
        conditionsFrom :=
          w.conditionsFrom.pushAll ((event.pairs event.conditionRelations).map Prod.swap)
        milestonesFrom :=
          w.milestonesFrom.pushAll ((event.pairs event.milestoneRelations).map Prod.swap) } := by
  -- a loop over targets is the loop over their pairs
  have paired {step : DcrWorkflow → Uid × Uid → DcrWorkflow} (targets : List WireUid)
      (v : DcrWorkflow) : (event.pairs targets).foldl step v =
        targets.foldl (fun v target ↦ step v (event.uid.fromWire, target.fromWire)) v :=
    List.foldl_map
  have excludes := fun v ↦ (paired event.excludeRelations v).symm.trans
    (DcrWorkflow.foldl_excludes _ v)
  have includes := fun v ↦ (paired event.includeRelations v).symm.trans
    (DcrWorkflow.foldl_includes _ v)
  have responses := fun v ↦ (paired event.responseRelations v).symm.trans
    (DcrWorkflow.foldl_responses _ v)
  have conditions := fun v ↦ (paired event.conditionRelations v).symm.trans
    (DcrWorkflow.foldl_conditions _ v)
  have milestones := fun v ↦ (paired event.milestoneRelations v).symm.trans
    (DcrWorkflow.foldl_milestones _ v)
  dsimp only at excludes includes responses conditions milestones
  simp only [addWireEvent, WireEvent.fromWire, excludes, includes, responses, conditions,
    milestones]

/-- The targets of one event join those of its id. -/
theorem mem_pushAll_pairs (r : Relation) (event : WireEvent) (targets : List WireUid) (e a : Uid) :
    a ∈ (r.pushAll (event.pairs targets)).getD e [] ↔
      a ∈ r.getD e [] ∨ event.uid.fromWire = e ∧ a ∈ targets.map WireUid.fromWire := by
  rw [Relation.getD_pushAll, List.mem_append, WireEvent.pairs]
  by_cases h : event.uid.fromWire = e
  · simp [h, List.filter_map, Function.comp_def]
  · simp [h, List.filter_map, Function.comp_def]

/-- What each event may add, the conversion has if some event of the message adds it. -/
theorem fromWire_iff {P : DcrWorkflow → Prop} {Q : WireEvent → Prop}
    (adds : ∀ w event, P (addWireEvent w event) ↔ Q event ∨ P w) (none : ¬P .empty)
    (workflow : WireWorkflow) : P workflow.fromWire ↔ ∃ event ∈ workflow.events, Q event := by
  have key (events : List WireEvent) (w : DcrWorkflow) :
      P (events.foldl addWireEvent w) ↔ (∃ event ∈ events, Q event) ∨ P w := by
    induction events generalizing w with
    | nil => simp
    | cons event events ih =>
      rw [List.foldl_cons, ih, adds, List.exists_mem_cons_iff]
      exact or_left_comm.trans or_assoc.symm
  exact (key workflow.events .empty).trans (or_iff_left none)

/-- The store holds the events of the message. -/
theorem mem_fromWire (workflow : WireWorkflow) (a : Uid) :
    a ∈ workflow.fromWire.eventStore ↔ ∃ event ∈ workflow.events, event.uid.fromWire = a := by
  refine fromWire_iff (P := fun w ↦ a ∈ w.eventStore) (fun w event ↦ ?_) ?_ workflow
  · rw [addWireEvent_eq, mem_insert_uid]
  · exact Std.ExtTreeMap.not_mem_empty

/-- What an execution affects is named by the events of the message with that id. -/
theorem mem_affected_fromWire (workflow : WireWorkflow) (e a : Uid) :
    a ∈ workflow.fromWire.affected e ↔
      ∃ event ∈ workflow.events, event.uid.fromWire = e ∧ a ∈ event.affected := by
  refine fromWire_iff (P := fun w ↦ a ∈ w.affected e) (fun w event ↦ ?_) ?_ workflow
  · simp only [addWireEvent_eq, DcrWorkflow.affected, WireEvent.affected, List.mem_append,
      mem_pushAll_pairs, List.map_append]
    tauto
  · simp [DcrWorkflow.empty, DcrWorkflow.affected]

/-- The id has a record of its own: the message declares it, or it is the zero id. -/
def WireWorkflow.Owns (workflow : WireWorkflow) (k : Uid) : Prop :=
  (∃ event ∈ workflow.events, event.uid.fromWire = k) ∨ k = emptyUid

/-- The call, and the relations of the event it executes, name such ids only. -/
def WireWorkflow.NamesOwned (workflow : WireWorkflow) : WorkflowCall → Prop
  | .isEventEnabled eventId => workflow.Owns eventId
  | .setEventExecuted eventId => workflow.Owns eventId ∧ ∀ event ∈ workflow.events,
      event.uid.fromWire = eventId → ∀ target ∈ event.affected, workflow.Owns target
  | .getLockSet _ => True
  | .getInformSet _ => True

instance (workflow : WireWorkflow) (k : Uid) : Decidable (workflow.Owns k) :=
  inferInstanceAs (Decidable (_ ∨ _))

instance (workflow : WireWorkflow) : DecidablePred workflow.NamesOwned
  | .isEventEnabled eventId => inferInstanceAs (Decidable (workflow.Owns eventId))
  | .setEventExecuted _ => inferInstanceAs (Decidable (_ ∧ _))
  | .getLockSet _ => isTrue trivial
  | .getInformSet _ => isTrue trivial

/-- What a call enters, read off the message. -/
theorem namesOwned_iff (workflow : WireWorkflow) (call : WorkflowCall) :
    workflow.NamesOwned call ↔ ∀ a ∈ call.entered workflow.fromWire,
      a ∈ workflow.fromWire.eventStore ∨ a = emptyUid := by
  have owns (a : Uid) :
      workflow.Owns a ↔ a ∈ workflow.fromWire.eventStore ∨ a = emptyUid := by
    rw [mem_fromWire]
    rfl
  cases call with
  | isEventEnabled eventId =>
    simp only [WireWorkflow.NamesOwned, WorkflowCall.entered, List.forall_mem_singleton, owns]
  | setEventExecuted eventId =>
    simp only [WireWorkflow.NamesOwned, WorkflowCall.entered, List.forall_mem_cons, owns]
    refine and_congr_right fun hown ↦ ?_
    have hid : (workflow.fromWire.event eventId).id = eventId :=
      (DcrWorkflow.KeepsIds.id_event_iff (flat_fromWire workflow).own eventId).mpr hown
    simp only [hid, mem_affected_fromWire]
    constructor
    · rintro h a ⟨event, hevent, he, ha⟩
      exact h event hevent he a ha
    · intro h event hevent he a ha
      exact h a ⟨event, hevent, he, ha⟩
  | getLockSet eventId => simp [WireWorkflow.NamesOwned, WorkflowCall.entered]
  | getInformSet eventId => simp [WireWorkflow.NamesOwned, WorkflowCall.entered]

/-- In the daemon's workflow and in the enclave's alike, the records keep their ids and every call
uses the relations of its own event, if and only if no call names an undeclared event other than
the zero id, be it directly or as a target of the event it executes.
`src/enclave/dcr.cpp:3–38,200–241`. -/
theorem records_keep_ids_iff (workflow : WireWorkflow) (calls : List WorkflowCall) :
    let d := workflow.fromWire
    (OwnsAlong d calls ↔ ∀ call ∈ calls, workflow.NamesOwned call) ∧
      (OwnsAlong (makeWorkflow d.createIntermediate) calls ↔
        ∀ call ∈ calls, workflow.NamesOwned call) := by
  intro d
  have flat := flat_fromWire workflow
  simp only [namesOwned_iff]
  exact ⟨ownsAlong_iff flat.own flat.sourced calls, flat.sameLists.ownsAlong_iff flat calls⟩

/-- An event that responds to the undeclared event 2, and one that is a condition for it. -/
def undeclaredResponse : WireWorkflow :=
  let event : WireEvent := ⟨⟨0, 1⟩, false, false, false, [], [], [], [], []⟩
  ⟨[{ event with responseRelations := [⟨0, 2⟩] },
    { event with uid := ⟨0, 3⟩, conditionRelations := [⟨0, 2⟩] }]⟩

example : undeclaredResponse.NamesOwned (.setEventExecuted ⟨0, 3⟩) ∧
    ¬undeclaredResponse.NamesOwned (.setEventExecuted ⟨0, 1⟩) := by
  decide

/-- The response enters a record without its id, and the query that follows overlooks the
condition. -/
theorem undeclared_response_loses_id :
    let w := makeWorkflow undeclaredResponse.fromWire.createIntermediate
    let v := w.setEventExecuted ⟨0, 1⟩
    ⟨0, 2⟩ ∈ v.eventStore ∧ (v.event ⟨0, 2⟩).id = emptyUid ∧
      v.conditionsFrom.getD ⟨0, 2⟩ [] = [⟨0, 3⟩] ∧
      v.event ⟨0, 3⟩ = ⟨⟨0, 3⟩, false, false, false⟩ ∧ (v.isEventEnabled ⟨0, 2⟩).1 = true ∧
      ¬OwnsAlong w [.setEventExecuted ⟨0, 1⟩, .isEventEnabled ⟨0, 2⟩] := by
  intro w v
  have hmem : ⟨0, 2⟩ ∈ v.eventStore := by decide +kernel
  have hlost : (v.event ⟨0, 2⟩).id = emptyUid := by decide +kernel
  refine ⟨hmem, hlost, by decide +kernel, by decide +kernel, by decide +kernel, fun along ↦ ?_⟩
  have hid : (v.event ⟨0, 2⟩).id = ⟨0, 2⟩ :=
    along.keepsIds [.setEventExecuted ⟨0, 1⟩] ⟨[.isEventEnabled ⟨0, 2⟩], rfl⟩ ⟨0, 2⟩ hmem
  rw [hlost] at hid
  exact absurd hid (by decide)

end TrustedDcr.Daemon
