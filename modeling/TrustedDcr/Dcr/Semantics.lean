import TrustedDcr.Dcr.Locks

/-!
# Running a workflow

Executions and queries in any order. The records read as the marking that the
executions alone lead to in the graph of the workflow, every answer is enabledness
in it, and the inserting reads find a record for every event that a relation names.
-/

namespace TrustedDcr.Dcr
open TrustedDcr.Msg TrustedDcr.Theory.Dcr

namespace DcrWorkflow

/-! ### The events with a record -/

/-- Reading a record through `operator[]` stores it, and no other. -/
@[simp] theorem mem_touch (w : DcrWorkflow) (k a : Uid) :
    a ∈ (w.touch k).eventStore ↔ k = a ∨ a ∈ w.eventStore := by
  unfold touch
  split
  · next hk =>
    constructor
    · exact Or.inr
    · rintro (rfl | ha)
      · exact hk
      · exact ha
  · exact mem_insert_uid _ _ _ _

/-- A loop over events with a record enters none. -/
theorem mem_noneBlocks (blocks : DcrEvent → Bool) {cs : List Uid} {w : DcrWorkflow}
    (known : ∀ c ∈ cs, c ∈ w.eventStore) (a : Uid) :
    a ∈ (noneBlocks blocks cs w).2.eventStore ↔ a ∈ w.eventStore := by
  induction cs generalizing w with
  | nil => rfl
  | cons c cs ih =>
    obtain ⟨hc, hcs⟩ := List.forall_mem_cons.mp known
    have touched : a ∈ (w.touch c).eventStore ↔ a ∈ w.eventStore := by
      rw [mem_touch]
      constructor
      · rintro (rfl | ha)
        · exact hc
        · exact ha
      · exact Or.inr
    unfold noneBlocks
    split
    · exact touched
    · rw [ih fun x hx ↦ (mem_touch w c x).mpr (Or.inr (hcs x hx)), touched]

/-- The events whose records the three loops of `set_event_executed` write for `e`.
`src/enclave/dcr.cpp:27–37`. -/
def affected (w : DcrWorkflow) (e : Uid) : List Uid :=
  w.excludesTo.getD e [] ++ w.includesTo.getD e [] ++ w.responsesTo.getD e []

/-- An execution enters the executed event and those affected by it. -/
theorem mem_setEventExecuted (w : DcrWorkflow) (e a : Uid) :
    a ∈ (w.setEventExecuted e).eventStore ↔
      e = a ∨ a ∈ w.affected (w.event e).id ∨ a ∈ w.eventStore := by
  have hx := (sameGraph_modifyEvent w e fun e ↦ { e with executed := true }).trans
    (sameGraph_modifyEvent _ e fun e ↦ { e with pending := false })
  have hi := hx.trans (sameGraph_foldl_modifyEvent (fun e ↦ { e with excluded := true })
    (w.excludesTo.getD (w.event e).id []) _)
  have hr := hi.trans (sameGraph_foldl_modifyEvent (fun e ↦ { e with excluded := false })
    (w.includesTo.getD (w.event e).id []) _)
  unfold setEventExecuted affected
  dsimp only
  rw [congrArg excludesTo hx, congrArg includesTo hi, congrArg responsesTo hr]
  rw [mem_foldl_modifyEvent, mem_foldl_modifyEvent, mem_foldl_modifyEvent, mem_modifyEvent,
    mem_modifyEvent, List.mem_append, List.mem_append]
  tauto

/-- Every condition and every milestone has a record. -/
structure Sourced (w : DcrWorkflow) : Prop where
  conditions : ∀ e, ∀ x ∈ w.conditionsFrom.getD e [], x ∈ w.eventStore
  milestones : ∀ e, ∀ x ∈ w.milestonesFrom.getD e [], x ∈ w.eventStore

/-- More records do not matter. -/
theorem Sourced.of_sameGraph {w v : DcrWorkflow} (sourced : w.Sourced) (graph : SameGraph w v)
    (more : ∀ a ∈ w.eventStore, a ∈ v.eventStore) : v.Sourced where
  conditions e x hx := by
    rw [congrArg conditionsFrom graph] at hx
    exact more x (sourced.conditions e x hx)
  milestones e x hx := by
    rw [congrArg milestonesFrom graph] at hx
    exact more x (sourced.milestones e x hx)

/-- A query enters no event but the queried one. -/
theorem Sourced.mem_isEventEnabled {w : DcrWorkflow} (sourced : w.Sourced) (e a : Uid) :
    a ∈ (w.isEventEnabled e).2.eventStore ↔ e = a ∨ a ∈ w.eventStore := by
  have htouch : ∀ x ∈ w.eventStore, x ∈ (w.touch e).eventStore := fun x hx ↦
    (mem_touch w e x).mpr (Or.inr hx)
  have hsourced := sourced.of_sameGraph (sameGraph_touch w e) htouch
  have conditions (blocks : DcrEvent → Bool) (i : Uid) :=
    mem_noneBlocks blocks (hsourced.conditions i)
  unfold isEventEnabled
  dsimp only
  split
  · exact mem_touch w e a
  · split
    · rw [conditions, mem_touch]
    · have graph := (noneBlocks_spec (fun c ↦ !c.executed && !c.excluded)
        ((w.touch e).conditionsFrom.getD ((w.touch e).event e).id []) (w.touch e)).2.1
      have hmilestones := hsourced.of_sameGraph graph fun x hx ↦ (conditions _ _ x).mpr hx
      rw [mem_noneBlocks _ (hmilestones.milestones _), conditions, mem_touch]

/-- Every event that a relation names, from either end, has a record. -/
structure Closed (w : DcrWorkflow) : Prop where
  excludes : ∀ e, ∀ x ∈ w.excludesTo.getD e [], x ∈ w.eventStore
  includes : ∀ e, ∀ x ∈ w.includesTo.getD e [], x ∈ w.eventStore
  responses : ∀ e, ∀ x ∈ w.responsesTo.getD e [], x ∈ w.eventStore
  conditions : ∀ e, ∀ x ∈ w.conditionsFrom.getD e [], x ∈ w.eventStore
  milestones : ∀ e, ∀ x ∈ w.milestonesFrom.getD e [], x ∈ w.eventStore

/-- More records do not matter. -/
theorem Closed.of_sameGraph {w v : DcrWorkflow} (closed : w.Closed) (graph : SameGraph w v)
    (more : ∀ a ∈ w.eventStore, a ∈ v.eventStore) : v.Closed where
  excludes e x hx := by
    rw [congrArg excludesTo graph] at hx
    exact more x (closed.excludes e x hx)
  includes e x hx := by
    rw [congrArg includesTo graph] at hx
    exact more x (closed.includes e x hx)
  responses e x hx := by
    rw [congrArg responsesTo graph] at hx
    exact more x (closed.responses e x hx)
  conditions e x hx := by
    rw [congrArg conditionsFrom graph] at hx
    exact more x (closed.conditions e x hx)
  milestones e x hx := by
    rw [congrArg milestonesFrom graph] at hx
    exact more x (closed.milestones e x hx)

private theorem Closed.sourced {w : DcrWorkflow} (closed : w.Closed) : w.Sourced :=
  ⟨closed.conditions, closed.milestones⟩

/-- An execution enters no event but the executed one. -/
theorem Closed.mem_setEventExecuted {w : DcrWorkflow} (closed : w.Closed) (e a : Uid) :
    a ∈ (w.setEventExecuted e).eventStore ↔ e = a ∨ a ∈ w.eventStore := by
  have known : a ∈ w.affected (w.event e).id → a ∈ w.eventStore := by
    intro ha
    rcases List.mem_append.mp ha with ha | ha
    · rcases List.mem_append.mp ha with ha | ha
      · exact closed.excludes _ a ha
      · exact closed.includes _ a ha
    · exact closed.responses _ a ha
  rw [DcrWorkflow.mem_setEventExecuted]
  tauto

end DcrWorkflow

/-! ### What `make_workflow` names -/

/-- Declared events have a record. -/
theorem mem_makeWorkflow_of_declared {wf : IntermediateDcrWorkflow} {e : Uid}
    (declared : e ∈ wf.eventIds) : e ∈ (makeWorkflow wf).eventStore := by
  have marks (l : List Uid) (f : DcrEvent → DcrEvent) (w : DcrWorkflow) (h : e ∈ w.eventStore) :
      e ∈ (l.foldl (fun w id ↦ w.modifyEvent id f) w).eventStore :=
    (DcrWorkflow.mem_foldl_modifyEvent f l w e).mpr (Or.inr h)
  have ids (l : List Uid) (w : DcrWorkflow) (h : e ∈ l ∨ e ∈ w.eventStore) :
      e ∈ (l.foldl (fun w id ↦ { w with
        eventStore := w.eventStore.insert id { zeroEvent with id := id } }) w).eventStore := by
    induction l generalizing w with
    | nil => exact h.resolve_left (by simp)
    | cons x l ih =>
      apply ih
      rw [mem_insert_uid]
      simp only [List.mem_cons] at h
      tauto
  unfold makeWorkflow
  refine foldl_keeps (P := fun w ↦ e ∈ w.eventStore) _ _ ?_ fun _ _ _ h ↦ h
  refine foldl_keeps (P := fun w ↦ e ∈ w.eventStore) _ _ ?_ fun _ _ _ h ↦ h
  refine foldl_keeps (P := fun w ↦ e ∈ w.eventStore) _ _ ?_ fun _ _ _ h ↦ h
  refine foldl_keeps (P := fun w ↦ e ∈ w.eventStore) _ _ ?_ fun _ _ _ h ↦ h
  refine foldl_keeps (P := fun w ↦ e ∈ w.eventStore) _ _ ?_ fun _ _ _ h ↦ h
  exact marks _ _ _ (marks _ _ _ (marks _ _ _ (ids _ _ (Or.inl declared))))

/-- The conditions and milestones of an event are events of the workflow. -/
theorem makeWorkflow_from (wf : IntermediateDcrWorkflow) :
    (makeWorkflow wf).conditionsFrom.Into wf.events ∧
      (makeWorkflow wf).milestonesFrom.Into wf.events := by
  have related (x : Uid) := @IntermediateDcrWorkflow.mem_events wf x
  have source {sources targets : List Uid} {r : Uid × Uid} (hr : r ∈ sources.zip targets)
      (sub : ∀ x ∈ sources, x ∈ wf.events) : r.1 ∈ wf.events := sub _ (List.of_mem_zip hr).1
  have none : (∅ : Relation).Into wf.events := by
    intro e f hf
    simp at hf
  let P := fun w : DcrWorkflow ↦
    w.conditionsFrom.Into wf.events ∧ w.milestonesFrom.Into wf.events
  unfold makeWorkflow
  refine foldl_keeps (P := P) _ _ ?_ fun _ _ _ h ↦ h
  refine foldl_keeps (P := P) _ _ ?_ fun _ _ _ h ↦ h
  refine foldl_keeps (P := P) _ _ ?_ fun _ _ _ h ↦ h
  refine foldl_keeps (P := P) _ _ ?_ fun v r hr hv ↦
    ⟨hv.1, hv.2.push (source hr fun _ h ↦ by simp [related, h])⟩
  refine foldl_keeps (P := P) _ _ ?_ fun v r hr hv ↦
    ⟨hv.1.push (source hr fun _ h ↦ by simp [related, h]), hv.2⟩
  refine foldl_keeps (P := P) _ _ ?_ fun _ _ _ h ↦ h
  refine foldl_keeps (P := P) _ _ ?_ fun _ _ _ h ↦ h
  refine foldl_keeps (P := P) _ _ ?_ fun _ _ _ h ↦ h
  exact foldl_keeps (P := P) _ _ ⟨none, none⟩ fun _ _ _ h ↦ h

/-- Where the relations name declared events only, each of them has a record. -/
theorem makeWorkflow_closed {wf : IntermediateDcrWorkflow}
    (named : ∀ e ∈ wf.events, e ∈ wf.eventIds) : (makeWorkflow wf).Closed := by
  have into := makeWorkflow_into wf
  obtain ⟨conditions, milestones⟩ := makeWorkflow_from wf
  have known {x : Uid} (hx : x ∈ wf.events) : x ∈ (makeWorkflow wf).eventStore :=
    mem_makeWorkflow_of_declared (named x hx)
  exact ⟨fun e x hx ↦ known (into.excludes e x hx), fun e x hx ↦ known (into.includes e x hx),
    fun e x hx ↦ known (into.responses e x hx), fun e x hx ↦ known (conditions e x hx),
    fun e x hx ↦ known (milestones e x hx)⟩

/-! ### Sequences of calls -/

/-- A call of a workflow's owner. -/
inductive Operation where
  | setEventExecuted (event : Uid)
  | isEventEnabled (event : Uid)
  deriving DecidableEq

/-- The workflow after the call. -/
def Operation.perform (w : DcrWorkflow) : Operation → DcrWorkflow
  | .setEventExecuted event => w.setEventExecuted event
  | .isEventEnabled event => (w.isEventEnabled event).2

/-- The event that is executed. -/
def Operation.executed : Operation → Option Uid
  | .setEventExecuted event => some event
  | .isEventEnabled _ => none

/-- A workflow that the calls have led to from the one `make_workflow` returned. -/
structure Follows (wf : IntermediateDcrWorkflow) (ops : List Operation) (w : DcrWorkflow) :
    Prop where
  graph : (makeWorkflow wf).SameGraph w
  wellFormed : w.WellFormed wf.eventIds
  marking : w.marking = run (makeWorkflow wf).graph (makeWorkflow wf).marking
    (ops.filterMap Operation.executed)
  events : ∀ a, a ∈ w.eventStore ↔ a ∈ (makeWorkflow wf).eventStore ∨
    a ∉ wf.eventIds ∧ .isEventEnabled a ∈ ops

namespace Follows

variable {wf : IntermediateDcrWorkflow} {ops : List Operation} {w : DcrWorkflow}

private theorem nil (wf : IntermediateDcrWorkflow) : Follows wf [] (makeWorkflow wf) :=
  ⟨DcrWorkflow.SameGraph.refl _, makeWorkflow_wellFormed wf, rfl, by simp⟩

private theorem closed (h : Follows wf ops w) (named : ∀ e ∈ wf.events, e ∈ wf.eventIds) :
    w.Closed :=
  (makeWorkflow_closed named).of_sameGraph h.graph fun a ha ↦ (h.events a).mpr (Or.inl ha)

/-- One more call. -/
theorem perform (h : Follows wf ops w) (named : ∀ e ∈ wf.events, e ∈ wf.eventIds) {op : Operation}
    (declared : ∀ e, op = .setEventExecuted e → e ∈ wf.eventIds) :
    Follows wf (ops ++ [op]) (op.perform w) := by
  have known {x : Uid} (hx : x ∈ wf.eventIds) := mem_makeWorkflow_of_declared hx
  cases op with
  | setEventExecuted e =>
    have he := declared e rfl
    have hgraph := DcrWorkflow.sameGraph_setEventExecuted w e
    refine ⟨h.graph.trans hgraph, h.wellFormed.setEventExecuted he, ?_, fun a ↦ ?_⟩
    · have hexecuted : [Operation.setEventExecuted e].filterMap Operation.executed = [e] := rfl
      rw [List.filterMap_append, run_append, ← h.marking, hexecuted, ← h.graph.graph_eq]
      exact DcrWorkflow.marking_setEventExecuted w e (h.wellFormed.own e he)
    · have ha := h.events a
      have hadd := (h.closed named).mem_setEventExecuted e a
      simp only [Operation.perform, List.mem_append, List.mem_singleton, reduceCtorEq, or_false,
        hadd, ha]
      constructor
      · rintro (rfl | h)
        · exact Or.inl (known he)
        · exact h
      · exact Or.inr
  | isEventEnabled e =>
    have hreads := DcrWorkflow.sameReads_isEventEnabled w e
    refine ⟨h.graph.trans hreads.graph, hreads.wellFormed h.wellFormed, ?_, fun a ↦ ?_⟩
    · have hexecuted : [Operation.isEventEnabled e].filterMap Operation.executed = [] := rfl
      rw [List.filterMap_append, hexecuted, List.append_nil, ← h.marking]
      exact hreads.marking_eq
    · have ha := h.events a
      have hadd := (h.closed named).sourced.mem_isEventEnabled e a
      simp only [Operation.perform, List.mem_append, List.mem_singleton,
        Operation.isEventEnabled.injEq, hadd, ha]
      by_cases hdeclared : a ∈ wf.eventIds
      · simp [known hdeclared]
      · simp only [hdeclared, not_false_eq_true, true_and, eq_comm]
        tauto

/-- Any number of calls. -/
theorem foldl (named : ∀ e ∈ wf.events, e ∈ wf.eventIds) (ops : List Operation)
    (declared : ∀ e, .setEventExecuted e ∈ ops → e ∈ wf.eventIds) :
    Follows wf ops (ops.foldl Operation.perform (makeWorkflow wf)) := by
  induction ops using List.reverseRecOn with
  | nil => exact Follows.nil wf
  | append_singleton ops op ih =>
    rw [List.foldl_append]
    refine (ih fun e he ↦ declared e (List.mem_append_left _ he)).perform named ?_
    rintro e rfl
    exact declared e (List.mem_append_right _ List.mem_cons_self)

end Follows

/-- After any calls, of which the executions are of declared events, the marking is the one the
DCR rules give, every declared event is answered for by the rules, and the graph is as
`make_workflow` has built it; only a query for an undeclared event enters one.
`src/enclave/dcr.cpp:3–38,200–241`. -/
theorem workflow_follows_rules {wf : IntermediateDcrWorkflow}
    (named : ∀ e ∈ wf.events, e ∈ wf.eventIds) {ops : List Operation}
    (declared : ∀ e, .setEventExecuted e ∈ ops → e ∈ wf.eventIds) :
    let w := makeWorkflow wf
    let v := ops.foldl Operation.perform w
    v.marking = run w.graph w.marking (ops.filterMap Operation.executed) ∧
      (∀ f ∈ wf.eventIds, (v.isEventEnabled f).1 = true ↔ Enabled w.graph v.marking f) ∧
      w.SameGraph v ∧
      ∀ a, a ∈ v.eventStore ↔ a ∈ w.eventStore ∨
        a ∉ wf.eventIds ∧ .isEventEnabled a ∈ ops := by
  intro w v
  have h := Follows.foldl named ops declared
  refine ⟨h.marking, fun f hf ↦ ?_, h.graph, h.events⟩
  rw [← h.graph.graph_eq]
  exact DcrWorkflow.isEventEnabled_iff h.wellFormed hf

/-- An event that excludes, includes and responds to itself, queried and executed twice. -/
theorem selfRelated_follows_rules :
    let wf : IntermediateDcrWorkflow := { wfDuDe with
      dcrExcludesOut := [⟨0, 1⟩, ⟨0, 1⟩], dcrExcludesIn := [⟨0, 1⟩, ⟨0, 3⟩]
      dcrIncludesOut := [⟨0, 1⟩], dcrIncludesIn := [⟨0, 1⟩]
      dcrResponsesOut := [⟨0, 1⟩], dcrResponsesIn := [⟨0, 1⟩] }
    let ops : List Operation := [.isEventEnabled ⟨0, 3⟩, .setEventExecuted ⟨0, 1⟩,
      .isEventEnabled ⟨0, 1⟩, .setEventExecuted ⟨0, 1⟩]
    let w := makeWorkflow wf
    let v := ops.foldl Operation.perform w
    v.marking = run w.graph w.marking [⟨0, 1⟩, ⟨0, 1⟩] ∧
      (∀ f ∈ wf.eventIds, (v.isEventEnabled f).1 = true ↔ Enabled w.graph v.marking f) ∧
      w.SameGraph v ∧
      ∀ a, a ∈ v.eventStore ↔ a ∈ w.eventStore ∨
        a ∉ wf.eventIds ∧ .isEventEnabled a ∈ ops := by
  intro wf ops
  have declared : ∀ e, .setEventExecuted e ∈ ops → e ∈ wf.eventIds := by
    intro e he
    obtain rfl : e = ⟨0, 1⟩ := by simpa [ops] using he
    decide
  exact @workflow_follows_rules wf (by decide) ops declared

end TrustedDcr.Dcr
