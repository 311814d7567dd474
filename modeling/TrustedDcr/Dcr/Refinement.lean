import TrustedDcr.Dcr.Workflow
import TrustedDcr.Theory.DcrGraph

/-!
# The workflow maps refine a DCR graph and its marking

The relation maps of a workflow are read as a graph and its event records as a
marking. On events whose record carries their own id, and with `*_from` inverse
to `*_to`, `is_event_enabled` decides enabledness and `set_event_executed` is
execution; `make_workflow` establishes both provisos and `set_event_executed`
keeps them.
-/

namespace TrustedDcr.Dcr
open TrustedDcr.Msg TrustedDcr.Theory.Dcr

namespace DcrWorkflow

/-- The graph spelled out by the outgoing relation maps. -/
def graph (w : DcrWorkflow) : Graph Uid where
  conditions e := {f | f ∈ w.conditionsTo.getD e []}
  milestones e := {f | f ∈ w.milestonesTo.getD e []}
  excludes e := {f | f ∈ w.excludesTo.getD e []}
  includes e := {f | f ∈ w.includesTo.getD e []}
  responses e := {f | f ∈ w.responsesTo.getD e []}

/-- The marking held in the event records. -/
def marking (w : DcrWorkflow) : Marking Uid where
  executed := {e | (w.event e).executed = true}
  pending := {e | (w.event e).pending = true}
  excluded := {e | (w.event e).excluded = true}

/-- Only event records differ. -/
def SameGraph (w v : DcrWorkflow) : Prop := v = { w with eventStore := v.eventStore }

/-- A workflow has its own relations. -/
theorem SameGraph.refl (w : DcrWorkflow) : SameGraph w w := rfl

private theorem SameGraph.symm {w v : DcrWorkflow} (h : SameGraph w v) : SameGraph v w := by
  unfold SameGraph at *
  rw [h]

/-- Relations unchanged twice are unchanged. -/
theorem SameGraph.trans {u v w : DcrWorkflow} (huv : SameGraph u v) (hvw : SameGraph v w) :
    SameGraph u w := by
  unfold SameGraph at *
  rw [hvw, huv]

/-- Workflows that differ in records only have one graph. -/
theorem SameGraph.graph_eq {w v : DcrWorkflow} (h : SameGraph w v) : v.graph = w.graph := by
  rw [h]
  rfl

/-- Reading a record through `operator[]` leaves the relations alone. -/
theorem sameGraph_touch (w : DcrWorkflow) (k : Uid) : SameGraph w (w.touch k) := by
  unfold touch
  split <;> rfl

/-- Writing a record leaves the relations alone. -/
theorem sameGraph_modifyEvent (w : DcrWorkflow) (k : Uid) (f : DcrEvent → DcrEvent) :
    SameGraph w (w.modifyEvent k f) := rfl

/-- Reading a record through `operator[]` changes no record. -/
@[simp] theorem event_touch (w : DcrWorkflow) (k a : Uid) : (w.touch k).event a = w.event a := by
  unfold touch
  split
  · rfl
  · next hk =>
    simp only [event, getD_insert_uid]
    split
    · next he =>
      rw [← he, Std.ExtTreeMap.getD_eq_fallback hk]
    · rfl

/-- An assignment changes the record at its key only. -/
@[simp] theorem event_modifyEvent (w : DcrWorkflow) (k a : Uid) (f : DcrEvent → DcrEvent) :
    (w.modifyEvent k f).event a = if k = a then f (w.event a) else w.event a := by
  simp only [modifyEvent, event, getD_insert_uid]
  split
  · next he => rw [he]
  · rfl

/-- A loop of idempotent assignments updates exactly the listed records. -/
theorem event_foldl_modifyEvent {f : DcrEvent → DcrEvent} (hf : ∀ e, f (f e) = f e)
    (l : List Uid) (w : DcrWorkflow) (a : Uid) :
    (l.foldl (fun w x ↦ w.modifyEvent x f) w).event a =
      if a ∈ l then f (w.event a) else w.event a := by
  induction l generalizing w with
  | nil => rfl
  | cons x l ih =>
    rw [List.foldl_cons, ih, event_modifyEvent]
    by_cases hx : x = a
    · subst x
      simp [hf]
    · simp [hx, Ne.symm hx]

/-- Writing one record after the other leaves the relations alone. -/
theorem sameGraph_foldl_modifyEvent (f : DcrEvent → DcrEvent) (l : List Uid) (w : DcrWorkflow) :
    SameGraph w (l.foldl (fun w x ↦ w.modifyEvent x f) w) := by
  induction l generalizing w with
  | nil => exact SameGraph.refl w
  | cons x l ih => exact (sameGraph_modifyEvent w x f).trans (ih _)

/-- Writing a record stores it, and no other. -/
@[simp] theorem mem_modifyEvent (w : DcrWorkflow) (k a : Uid) (f : DcrEvent → DcrEvent) :
    a ∈ (w.modifyEvent k f).eventStore ↔ k = a ∨ a ∈ w.eventStore := mem_insert_uid _ _ _ _

/-- A loop of assignments adds the listed events to the store. -/
theorem mem_foldl_modifyEvent (f : DcrEvent → DcrEvent) (l : List Uid) (w : DcrWorkflow)
    (a : Uid) : a ∈ (l.foldl (fun w x ↦ w.modifyEvent x f) w).eventStore ↔
      a ∈ l ∨ a ∈ w.eventStore := by
  induction l generalizing w with
  | nil => simp
  | cons x l ih =>
    rw [List.foldl_cons, ih, mem_modifyEvent, List.mem_cons, eq_comm]
    tauto

/-- Executing an event keeps every relation. -/
theorem sameGraph_setEventExecuted (w : DcrWorkflow) (e : Uid) :
    SameGraph w (w.setEventExecuted e) :=
  ((((sameGraph_modifyEvent w e _).trans (sameGraph_modifyEvent _ e _)).trans
    (sameGraph_foldl_modifyEvent _ _ _)).trans (sameGraph_foldl_modifyEvent _ _ _)).trans
    (sameGraph_foldl_modifyEvent _ _ _)

/-- The five assignments of `set_event_executed`, as seen at one record. -/
theorem event_setEventExecuted (w : DcrWorkflow) (e a : Uid) (he : (w.event e).id = e) :
    (w.setEventExecuted e).event a =
      { id := (w.event a).id
        executed := decide (a = e) || (w.event a).executed
        excluded := ((w.event a).excluded || decide (a ∈ w.excludesTo.getD e [])) &&
          !decide (a ∈ w.includesTo.getD e [])
        pending := ((w.event a).pending && !decide (a = e)) ||
          decide (a ∈ w.responsesTo.getD e []) } := by
  have hx := (sameGraph_modifyEvent w e fun e ↦ { e with executed := true }).trans
    (sameGraph_modifyEvent _ e fun e ↦ { e with pending := false })
  have hi := hx.trans (sameGraph_foldl_modifyEvent (fun e ↦ { e with excluded := true })
    (w.excludesTo.getD e []) _)
  have hr := hi.trans (sameGraph_foldl_modifyEvent (fun e ↦ { e with excluded := false })
    (w.includesTo.getD e []) _)
  simp only [setEventExecuted, he]
  rw [congrArg excludesTo hx, congrArg includesTo hi, congrArg responsesTo hr]
  rw [event_foldl_modifyEvent (by simp), event_foldl_modifyEvent (by simp),
    event_foldl_modifyEvent (by simp), event_modifyEvent, event_modifyEvent]
  by_cases hae : e = a
  · subst hae
    cases w.event e
    split <;> split <;> split <;> simp_all
  · have hea : a ≠ e := Ne.symm hae
    cases w.event a
    split <;> split <;> split <;> simp_all

/-- Executing an event is execution in the graph. -/
theorem marking_setEventExecuted (w : DcrWorkflow) (e : Uid) (he : (w.event e).id = e) :
    (w.setEventExecuted e).marking = execute w.graph w.marking e := by
  ext a
  · simp [marking, execute, event_setEventExecuted w e a he]
  · simp [marking, execute, graph, event_setEventExecuted w e a he]
  · simp [marking, execute, graph, event_setEventExecuted w e a he]

/-- A constraint loop answers for the records it is given and changes none of them. -/
theorem noneBlocks_spec (blocks : DcrEvent → Bool) (cs : List Uid) (w : DcrWorkflow) :
    (noneBlocks blocks cs w).1 = (cs.all fun c ↦ !blocks (w.event c)) ∧
      SameGraph w (noneBlocks blocks cs w).2 ∧
      ∀ a, (noneBlocks blocks cs w).2.event a = w.event a := by
  induction cs generalizing w with
  | nil => exact ⟨rfl, SameGraph.refl w, fun _ ↦ rfl⟩
  | cons c cs ih =>
    obtain ⟨hb, hg, hev⟩ := ih (w.touch c)
    simp only [noneBlocks, event_touch, List.all_cons]
    cases hc : blocks (w.event c) with
    | true => exact ⟨rfl, sameGraph_touch w c, event_touch w c⟩
    | false =>
      refine ⟨?_, (sameGraph_touch w c).trans hg, fun a ↦ ?_⟩
      · simpa using hb
      · simpa using hev a

/-- Reads cannot tell the workflows apart: they differ in records that reading leaves behind. -/
structure SameReads (w v : DcrWorkflow) : Prop where
  graph : SameGraph w v
  event : ∀ a, v.event a = w.event a

namespace SameReads

/-- Every workflow reads like itself. -/
protected theorem refl (w : DcrWorkflow) : SameReads w w := ⟨SameGraph.refl w, fun _ ↦ rfl⟩

/-- Workflows that read like one third read like each other. -/
protected theorem trans {u v w : DcrWorkflow} (huv : SameReads u v) (hvw : SameReads v w) :
    SameReads u w := ⟨huv.graph.trans hvw.graph, fun a ↦ (hvw.event a).trans (huv.event a)⟩

/-- Reading alike has no direction. -/
protected theorem symm {w v : DcrWorkflow} (h : SameReads w v) : SameReads v w :=
  ⟨h.graph.symm, fun a ↦ (h.event a).symm⟩

/-- Workflows that read alike have one marking. -/
theorem marking_eq {w v : DcrWorkflow} (h : SameReads w v) : v.marking = w.marking := by
  simp only [marking, h.event]

/-- The same assignment to both. -/
theorem modifyEvent {w v : DcrWorkflow} (h : SameReads w v) (k : Uid) (f : DcrEvent → DcrEvent) :
    SameReads (w.modifyEvent k f) (v.modifyEvent k f) where
  graph := by
    have hg := h.graph
    unfold SameGraph DcrWorkflow.modifyEvent at *
    rw [hg]
  event a := by rw [event_modifyEvent, event_modifyEvent, h.event]

/-- The same loop of assignments in both. -/
theorem foldl_modifyEvent {w v : DcrWorkflow} (h : SameReads w v) (f : DcrEvent → DcrEvent)
    {l l' : List Uid} (hl : l = l') : SameReads (l.foldl (fun w x ↦ w.modifyEvent x f) w)
      (l'.foldl (fun w x ↦ w.modifyEvent x f) v) := by
  subst hl
  induction l generalizing w v with
  | nil => exact h
  | cons x l ih => exact ih (h.modifyEvent x f)

/-- The same execution in both. -/
theorem setEventExecuted {w v : DcrWorkflow} (h : SameReads w v) (e : Uid) :
    SameReads (w.setEventExecuted e) (v.setEventExecuted e) := by
  have hm := (h.modifyEvent e fun e ↦ { e with executed := true }).modifyEvent e
    fun e ↦ { e with pending := false }
  have hx := hm.foldl_modifyEvent (fun e ↦ { e with excluded := true })
    (congrArg₂ (fun (r : Relation) i ↦ r.getD i []) (congrArg excludesTo hm.graph).symm
      (congrArg DcrEvent.id (h.event e)).symm)
  have hi := hx.foldl_modifyEvent (fun e ↦ { e with excluded := false })
    (congrArg₂ (fun (r : Relation) i ↦ r.getD i []) (congrArg includesTo hx.graph).symm
      (congrArg DcrEvent.id (h.event e)).symm)
  exact hi.foldl_modifyEvent (fun e ↦ { e with pending := true })
    (congrArg₂ (fun (r : Relation) i ↦ r.getD i []) (congrArg responsesTo hi.graph).symm
      (congrArg DcrEvent.id (h.event e)).symm)

end SameReads

private theorem sameReads_noneBlocks (blocks : DcrEvent → Bool) (cs : List Uid) (w : DcrWorkflow) :
    SameReads w (noneBlocks blocks cs w).2 :=
  ⟨(noneBlocks_spec blocks cs w).2.1, (noneBlocks_spec blocks cs w).2.2⟩

/-- An enabledness query only reads. -/
theorem sameReads_isEventEnabled (w : DcrWorkflow) (e : Uid) :
    SameReads w (w.isEventEnabled e).2 := by
  unfold isEventEnabled
  dsimp only
  have ht : SameReads w (w.touch e) := ⟨sameGraph_touch w e, event_touch w e⟩
  split
  · exact ht
  · split
    · exact ht.trans (sameReads_noneBlocks _ _ _)
    · exact (ht.trans (sameReads_noneBlocks _ _ _)).trans (sameReads_noneBlocks _ _ _)

/-- What the queries and executions of one event rely on. -/
structure WellFormed (w : DcrWorkflow) (declared : List Uid) : Prop where
  own : ∀ e ∈ declared, (w.event e).id = e
  conditions : ∀ c f, c ∈ w.conditionsFrom.getD f [] ↔ f ∈ w.conditionsTo.getD c []
  milestones : ∀ c f, c ∈ w.milestonesFrom.getD f [] ↔ f ∈ w.milestonesTo.getD c []

/-- Reading cannot break the provisos. -/
theorem SameReads.wellFormed {w v : DcrWorkflow} (h : SameReads w v) {declared : List Uid}
    (hw : w.WellFormed declared) : v.WellFormed declared where
  own e he := by rw [h.event, hw.own e he]
  conditions := by
    rw [congrArg conditionsFrom h.graph, congrArg conditionsTo h.graph]
    exact hw.conditions
  milestones := by
    rw [congrArg milestonesFrom h.graph, congrArg milestonesTo h.graph]
    exact hw.milestones

/-- The answer of `is_event_enabled`, from the records and the inverse lists. -/
theorem isEventEnabled_eq (w : DcrWorkflow) (e : Uid) :
    (w.isEventEnabled e).1 = (!(w.event e).excluded &&
      ((w.conditionsFrom.getD (w.event e).id []).all fun c ↦
        !(!(w.event c).executed && !(w.event c).excluded)) &&
      (w.milestonesFrom.getD (w.event e).id []).all fun m ↦
        !((w.event m).pending && !(w.event m).excluded)) := by
  have hg := sameGraph_touch w e
  unfold isEventEnabled
  simp only [event_touch]
  rw [congrArg conditionsFrom hg]
  obtain ⟨hc, hcg, hce⟩ := noneBlocks_spec (fun c ↦ !c.executed && !c.excluded)
    (w.conditionsFrom.getD (w.event e).id []) (w.touch e)
  simp only [event_touch] at hc hce
  rw [← hc]
  generalize noneBlocks (fun c ↦ !c.executed && !c.excluded)
    (w.conditionsFrom.getD (w.event e).id []) (w.touch e) = r at hcg hce ⊢
  obtain ⟨met, v⟩ := r
  dsimp only at hcg hce
  obtain ⟨hm, -, -⟩ := noneBlocks_spec (fun m ↦ m.pending && !m.excluded)
    (w.milestonesFrom.getD (w.event e).id []) v
  simp only [hce] at hm
  have hmf : v.milestonesFrom = w.milestonesFrom := by rw [hg.trans hcg]
  rw [hmf, ← hm]
  cases (w.event e).excluded <;> cases met <;> simp

/-- Workflows that read the same answer the same. -/
theorem SameReads.isEventEnabled_eq {w v : DcrWorkflow} (h : SameReads w v) (e : Uid) :
    (v.isEventEnabled e).1 = (w.isEventEnabled e).1 := by
  rw [DcrWorkflow.isEventEnabled_eq, DcrWorkflow.isEventEnabled_eq,
    congrArg conditionsFrom h.graph, congrArg milestonesFrom h.graph]
  simp only [h.event]

/-- The answer of `is_event_enabled` is enabledness in the marking. -/
theorem isEventEnabled_iff {w : DcrWorkflow} {declared : List Uid} (h : WellFormed w declared)
    {f : Uid} (hf : f ∈ declared) :
    (w.isEventEnabled f).1 = true ↔ Enabled w.graph w.marking f := by
  have hcond : ((w.conditionsFrom.getD f []).all fun c ↦
      !(!(w.event c).executed && !(w.event c).excluded)) = true ↔
      ∀ c, f ∈ w.graph.conditions c → c ∉ w.marking.excluded → c ∈ w.marking.executed := by
    simp only [List.all_eq_true, h.conditions, graph, marking, Set.mem_ofPred_eq]
    refine forall_congr' fun c ↦ forall_congr' fun _ ↦ ?_
    cases (w.event c).executed <;> cases (w.event c).excluded <;> simp
  have hmile : ((w.milestonesFrom.getD f []).all fun m ↦
      !((w.event m).pending && !(w.event m).excluded)) = true ↔
      ∀ c, f ∈ w.graph.milestones c → c ∉ w.marking.excluded → c ∉ w.marking.pending := by
    simp only [List.all_eq_true, h.milestones, graph, marking, Set.mem_ofPred_eq]
    refine forall_congr' fun c ↦ forall_congr' fun _ ↦ ?_
    cases (w.event c).pending <;> cases (w.event c).excluded <;> simp
  unfold Enabled
  rw [isEventEnabled_eq, h.own f hf, Bool.and_eq_true, Bool.and_eq_true, hcond, hmile, and_assoc]
  simp [marking]

/-- Executing an event keeps the provisos. -/
theorem WellFormed.setEventExecuted {w : DcrWorkflow} {declared : List Uid}
    (h : WellFormed w declared) {e : Uid} (he : e ∈ declared) :
    WellFormed (w.setEventExecuted e) declared := by
  have hg := sameGraph_setEventExecuted w e
  refine ⟨fun a ha ↦ ?_, ?_, ?_⟩
  · rw [event_setEventExecuted w e a (h.own e he)]
    exact h.own a ha
  · rw [congrArg conditionsFrom hg, congrArg conditionsTo hg]
    exact h.conditions
  · rw [congrArg milestonesFrom hg, congrArg milestonesTo hg]
    exact h.milestones

/-- A sequence of executions is the run of the graph, and keeps the provisos. -/
theorem WellFormed.foldl_setEventExecuted {w : DcrWorkflow} {declared : List Uid}
    (h : WellFormed w declared) {s : List Uid} (hs : ∀ e ∈ s, e ∈ declared) :
    WellFormed (s.foldl DcrWorkflow.setEventExecuted w) declared ∧
      (s.foldl DcrWorkflow.setEventExecuted w).graph = w.graph ∧
      (s.foldl DcrWorkflow.setEventExecuted w).marking = run w.graph w.marking s := by
  induction s generalizing w with
  | nil => exact ⟨h, rfl, rfl⟩
  | cons e s ih =>
    have he := hs e List.mem_cons_self
    have hg := (sameGraph_setEventExecuted w e).graph_eq
    obtain ⟨hw, hgr, hm⟩ := ih (h.setEventExecuted he) fun a ha ↦ hs a (List.mem_cons_of_mem _ ha)
    refine ⟨hw, hgr.trans hg, ?_⟩
    rw [List.foldl_cons, hm, hg, marking_setEventExecuted w e (h.own e he)]
    rfl

/-- Folding range insertions into a set collects every inserted list. -/
theorem mem_foldl_insertMany (l : List Uid) (g : Uid → List Uid) (h : Uid → List Uid)
    (s : UidSet) (a : Uid) :
    a ∈ l.foldl (fun cs x ↦ (cs.insertMany (g x)).insertMany (h x)) s ↔
      a ∈ s ∨ ∃ x ∈ l, a ∈ g x ∨ a ∈ h x := by
  induction l generalizing s with
  | nil => simp
  | cons x l ih =>
    rw [List.foldl_cons, ih]
    simp only [mem_insertMany_uid, List.mem_cons, exists_eq_or_imp, or_assoc]

private theorem mem_foldl_insert (l : List Uid) (s : UidSet) (a : Uid) :
    a ∈ l.foldl (fun t x ↦ t.insert x) s ↔ a ∈ s ∨ a ∈ l := by
  induction l generalizing s with
  | nil => simp
  | cons x l ih =>
    rw [List.foldl_cons, ih, mem_set_insert_uid, List.mem_cons]
    tauto

/-- `get_lock_set` is the lock set of the graph. -/
theorem mem_getLockSet (w : DcrWorkflow) (e a : Uid) :
    a ∈ w.getLockSet e ↔ a ∈ lockSet w.graph e := by
  simp only [getLockSet, mem_foldl_insert, mem_insertMany_uid, Std.ExtTreeSet.mem_toList,
    mem_foldl_insertMany, Std.ExtTreeSet.not_mem_empty, false_or]
  rfl

/-- `get_inform_set` is the inform set of the graph. -/
theorem mem_getInformSet (w : DcrWorkflow) (e a : Uid) :
    a ∈ w.getInformSet e ↔ a ∈ informSet w.graph e := by
  simp only [getInformSet, mem_insertMany_uid, Std.ExtTreeSet.mem_toList, mem_getLockSet,
    Std.ExtTreeSet.not_mem_empty, false_or]
  rfl

end DcrWorkflow

/-! ### What `make_workflow` builds -/

/-- A pushed relation lists the new target under its source. -/
theorem Relation.mem_push (r : Relation) (s t k a : Uid) :
    a ∈ (Relation.push r s t).getD k [] ↔ (s = k ∧ a = t) ∨ a ∈ r.getD k [] := by
  unfold Relation.push
  rw [getD_insert_uid]
  by_cases h : s = k
  · subst h
    simp [or_comm]
  · simp [h]

/-- The two maps hold the same pairs, read from either end. -/
def Inverse (fwd bwd : Relation) : Prop :=
  ∀ c f, c ∈ bwd.getD f [] ↔ f ∈ fwd.getD c []

private theorem Inverse.push {fwd bwd : Relation} (h : Inverse fwd bwd) (s t : Uid) :
    Inverse (Relation.push fwd s t) (Relation.push bwd t s) := by
  intro c f
  rw [Relation.mem_push, Relation.mem_push, h c f]
  tauto

/-- A loop keeps what each of its rounds keeps. -/
theorem foldl_keeps {α : Type} {P : DcrWorkflow → Prop} {step : DcrWorkflow → α → DcrWorkflow}
    (l : List α) (w : DcrWorkflow) (hw : P w) (hs : ∀ v a, a ∈ l → P v → P (step v a)) :
    P (l.foldl step w) :=
  List.foldlRecOn l step hw fun v hv a ha ↦ hs v a ha hv

private def Built (ids : List Uid) (w : DcrWorkflow) : Prop :=
  (∀ e ∈ ids, (w.event e).id = e) ∧ Inverse w.conditionsTo w.conditionsFrom ∧
    Inverse w.milestonesTo w.milestonesFrom

private theorem built_mark (ids l : List Uid) (f : DcrEvent → DcrEvent)
    (hf : ∀ e, (f e).id = e.id) (w : DcrWorkflow) (h : Built ids w) :
    Built ids (l.foldl (fun w id ↦ w.modifyEvent id f) w) := by
  refine foldl_keeps l w h fun v a _ hv ↦ ⟨fun e he ↦ ?_, hv.2⟩
  rw [DcrWorkflow.event_modifyEvent]
  split
  · rw [hf, hv.1 e he]
  · exact hv.1 e he

private theorem built_ids (ids : List Uid) :
    Built ids (ids.foldl (fun w id ↦
      { w with eventStore := w.eventStore.insert id { zeroEvent with id := id } })
      DcrWorkflow.empty) := by
  have inv : Inverse (∅ : Relation) (∅ : Relation) := by
    intro c f
    simp
  have key (l : List Uid) (w : DcrWorkflow) (seen : List Uid) (hw : Built seen w) :
      Built (seen ++ l) (l.foldl (fun w id ↦
        { w with eventStore := w.eventStore.insert id { zeroEvent with id := id } }) w) := by
    induction l generalizing w seen with
    | nil => simpa using hw
    | cons x l ih =>
      have hx : Built (seen ++ [x])
          { w with eventStore := w.eventStore.insert x { zeroEvent with id := x } } := by
        refine ⟨fun e he ↦ ?_, hw.2⟩
        simp only [DcrWorkflow.event, getD_insert_uid]
        split
        · next hxe => exact hxe
        · next hxe =>
          rcases List.mem_append.mp he with he | he
          · exact hw.1 e he
          · exact absurd (List.mem_singleton.mp he).symm hxe
      simpa using ih _ _ hx
  have := key ids DcrWorkflow.empty [] ⟨by simp, inv, inv⟩
  simpa using this

/-- The workflow handed to an enclave satisfies the provisos for its listed events. -/
theorem makeWorkflow_wellFormed (wf : IntermediateDcrWorkflow) :
    (makeWorkflow wf).WellFormed wf.eventIds := by
  have h : Built wf.eventIds (makeWorkflow wf) := by
    unfold makeWorkflow
    refine foldl_keeps _ _ ?_ fun v a _ hv ↦ hv
    refine foldl_keeps _ _ ?_ fun v a _ hv ↦ hv
    refine foldl_keeps _ _ ?_ fun v a _ hv ↦ hv
    refine foldl_keeps _ _ ?_ fun v a _ hv ↦ ⟨hv.1, hv.2.1, hv.2.2.push a.1 a.2⟩
    refine foldl_keeps _ _ ?_ fun v a _ hv ↦ ⟨hv.1, hv.2.1.push a.1 a.2, hv.2.2⟩
    refine built_mark _ _ (fun e ↦ { e with executed := true }) (fun _ ↦ rfl) _ ?_
    refine built_mark _ _ (fun e ↦ { e with pending := true }) (fun _ ↦ rfl) _ ?_
    refine built_mark _ _ (fun e ↦ { e with excluded := true }) (fun _ ↦ rfl) _ ?_
    exact built_ids wf.eventIds
  exact ⟨h.1, h.2.1, h.2.2⟩

end TrustedDcr.Dcr
