import TrustedDcr.Dcr.Refinement

/-!
# What lock sets and inform sets guarantee

`get_lock_set` and `get_inform_set` decide which clusters take part in an
execution. For every workflow `make_workflow` can return: an execution disables
members of its lock set only; enabled events with disjoint locks run in any
order to one marking; and the executions a cluster is informed of determine its
event's marks and enabledness. None of the three depends on the relation targets
being declared, only on the executed and queried events being so.
-/

namespace TrustedDcr.Dcr
open TrustedDcr.Msg TrustedDcr.Theory.Dcr

/-- The three marks of one event. -/
structure Marks where
  executed : Bool
  excluded : Bool
  pending : Bool

namespace DcrWorkflow

/-- The workflow with its records' marks replaced. -/
def withMarks (w : DcrWorkflow) (m : Uid → Marks) : DcrWorkflow :=
  { w with eventStore := w.eventStore.map fun k e ↦
      { e with executed := (m k).executed, excluded := (m k).excluded, pending := (m k).pending } }

/-- Records keep their ids under any marks. -/
theorem WellFormed.withMarks {w : DcrWorkflow} {declared : List Uid}
    (h : WellFormed w declared) (m : Uid → Marks) : WellFormed (w.withMarks m) declared := by
  refine ⟨fun e he ↦ ?_, h.conditions, h.milestones⟩
  have ho := h.own e he
  simp only [event, DcrWorkflow.withMarks, Std.ExtTreeMap.getD_eq_getD_getElem?] at ho ⊢
  cases hk : w.eventStore[e]? with
  | none => simpa [hk] using ho
  | some r => simpa [hk] using ho

/-- Every event of the sequence answers enabled at its turn. -/
def EnabledInTurn : DcrWorkflow → List Uid → Prop
  | _, [] => True
  | w, e :: s => (w.isEventEnabled e).1 = true ∧ EnabledInTurn (w.setEventExecuted e) s

instance : (w : DcrWorkflow) → (s : List Uid) → Decidable (EnabledInTurn w s)
  | _, [] => .isTrue trivial
  | w, e :: s =>
    have := instDecidableEnabledInTurn (w.setEventExecuted e) s
    inferInstanceAs (Decidable (_ ∧ _))

/-- The workflows hold the same executed, excluded and pending marks of every event. -/
def SameMarks (w v : DcrWorkflow) : Prop :=
  ∀ e, (w.event e).executed = (v.event e).executed ∧
    (w.event e).excluded = (v.event e).excluded ∧ (w.event e).pending = (v.event e).pending

private theorem sameMarks_iff (w v : DcrWorkflow) : SameMarks w v ↔ w.marking = v.marking := by
  rw [Marking.ext_iff, Set.ext_iff, Set.ext_iff, Set.ext_iff]
  simp only [SameMarks, marking, Set.mem_ofPred_eq, ← Bool.eq_iff_iff]
  constructor
  · intro h
    exact ⟨fun e ↦ (h e).1, fun e ↦ (h e).2.2, fun e ↦ (h e).2.1⟩
  · intro h e
    exact ⟨h.1 e, h.2.2 e, h.2.1 e⟩

/-- Answers along a sequence are enabledness along the run of the graph. -/
theorem WellFormed.enabledInTurn_iff {w : DcrWorkflow} {declared : List Uid}
    (h : WellFormed w declared) {s : List Uid} (hs : ∀ e ∈ s, e ∈ declared) :
    EnabledInTurn w s ↔ Runs w.graph w.marking s := by
  induction s generalizing w with
  | nil => exact Iff.rfl
  | cons e s ih =>
    have he := hs e List.mem_cons_self
    unfold EnabledInTurn Runs
    rw [isEventEnabled_iff h he,
      ih (h.setEventExecuted he) fun a ha ↦ hs a (List.mem_cons_of_mem _ ha),
      (sameGraph_setEventExecuted w e).graph_eq, marking_setEventExecuted w e (h.own e he)]

end DcrWorkflow

open DcrWorkflow

/-- The workflow `wf_DU_DE` of the tests: two proposals, their acceptances and a meeting.
`src/enclave_tests/test_objects.cpp:72–114`. -/
def wfDuDe : IntermediateDcrWorkflow where
  eventIds := [⟨0, 1⟩, ⟨0, 2⟩, ⟨0, 3⟩, ⟨0, 4⟩, ⟨0, 5⟩]
  excluded := [⟨0, 3⟩, ⟨0, 4⟩]
  pending := [⟨0, 5⟩]
  executed := []
  dcrConditionsOut := [⟨0, 1⟩]
  dcrConditionsIn := [⟨0, 2⟩]
  dcrMilestonesOut := [⟨0, 3⟩, ⟨0, 4⟩]
  dcrMilestonesIn := [⟨0, 5⟩, ⟨0, 5⟩]
  dcrIncludesOut := [⟨0, 1⟩, ⟨0, 2⟩]
  dcrIncludesIn := [⟨0, 4⟩, ⟨0, 3⟩]
  dcrExcludesOut := [⟨0, 3⟩, ⟨0, 3⟩, ⟨0, 4⟩, ⟨0, 4⟩]
  dcrExcludesIn := [⟨0, 4⟩, ⟨0, 3⟩, ⟨0, 3⟩, ⟨0, 4⟩]
  dcrResponsesOut := [⟨0, 1⟩, ⟨0, 2⟩]
  dcrResponsesIn := [⟨0, 4⟩, ⟨0, 3⟩]

/-- An event that one execution disables is in its lock set, under every marking.
`src/enclave/dcr.cpp:40–60`. -/
theorem mem_getLockSet_of_disabled (wf : IntermediateDcrWorkflow) (m : Uid → Marks) (e f : Uid)
    (he : e ∈ wf.eventIds) (hf : f ∈ wf.eventIds)
    (before : (((makeWorkflow wf).withMarks m).isEventEnabled f).1 = true)
    (after : ((((makeWorkflow wf).withMarks m).setEventExecuted e).isEventEnabled f).1 = false) :
    f ∈ (makeWorkflow wf).getLockSet e := by
  have h := (makeWorkflow_wellFormed wf).withMarks m
  have hb := (isEventEnabled_iff h hf).mp before
  have ha : ¬ Enabled _ _ f := fun h' ↦ by
    rw [(isEventEnabled_iff (h.setEventExecuted he) hf).mpr h'] at after
    exact Bool.noConfusion after
  rw [(sameGraph_setEventExecuted _ e).graph_eq, marking_setEventExecuted _ e (h.own e he)] at ha
  have hl : f ∈ lockSet ((makeWorkflow wf).withMarks m).graph e := by
    by_contra hl
    exact ha (hb.execute hl)
  exact (mem_getLockSet (makeWorkflow wf) e f).mpr hl

/-- Proposing a DU puts the milestone of the meeting in force, and so locks the meeting. -/
theorem proposal_locks_meeting :
    let m : Uid → Marks := fun k ↦ ⟨false, k == ⟨0, 3⟩ || k == ⟨0, 4⟩, k == ⟨0, 5⟩⟩
    (((makeWorkflow wfDuDe).withMarks m).isEventEnabled ⟨0, 5⟩).1 = true ∧
      (⟨0, 5⟩ : Uid) ∈ (makeWorkflow wfDuDe).getLockSet ⟨0, 1⟩ := by
  intro m
  exact ⟨by decide +kernel, mem_getLockSet_of_disabled wfDuDe m ⟨0, 1⟩ ⟨0, 5⟩
    (by decide) (by decide) (by decide +kernel) (by decide +kernel)⟩

/-- Enabled events whose locks, with the events themselves, are pairwise disjoint run in
every order, each enabled at its turn, to one marking. -/
theorem serialisable_of_disjoint_locks (wf : IntermediateDcrWorkflow) (m : Uid → Marks)
    (s : List Uid) (hs : ∀ e ∈ s, e ∈ wf.eventIds)
    (enabled : ∀ e ∈ s, (((makeWorkflow wf).withMarks m).isEventEnabled e).1 = true)
    (disjoint : s.Pairwise fun a b ↦ ∀ x,
      (x = a ∨ x ∈ (makeWorkflow wf).getLockSet a) →
      ¬(x = b ∨ x ∈ (makeWorkflow wf).getLockSet b))
    (t : List Uid) (ht : t.Perm s) :
    EnabledInTurn ((makeWorkflow wf).withMarks m) t ∧
      SameMarks (t.foldl setEventExecuted ((makeWorkflow wf).withMarks m))
        (s.foldl setEventExecuted ((makeWorkflow wf).withMarks m)) := by
  have h := (makeWorkflow_wellFormed wf).withMarks m
  have hts : ∀ e ∈ t, e ∈ wf.eventIds := fun e he ↦ hs e (ht.mem_iff.mp he)
  have hd : s.Pairwise fun a b ↦ Disjoint (footprint ((makeWorkflow wf).withMarks m).graph a)
      (footprint ((makeWorkflow wf).withMarks m).graph b) := by
    refine disjoint.imp fun {a b} hab ↦ Set.disjoint_left.mpr fun x hxa hxb ↦ hab x ?_ ?_
    · exact hxa.imp_right (mem_getLockSet (makeWorkflow wf) a x).mpr
    · exact hxb.imp_right (mem_getLockSet (makeWorkflow wf) b x).mpr
  have hdt := (ht.pairwise_iff fun {a b} hab ↦ hab.symm).mpr hd
  constructor
  · rw [h.enabledInTurn_iff hts]
    exact runs_of_pairwise hdt fun e he ↦
      (isEventEnabled_iff h (hts e he)).mp (enabled e (ht.mem_iff.mp he))
  · rw [sameMarks_iff, (h.foldl_setEventExecuted hts).2.2, (h.foldl_setEventExecuted hs).2.2]
    exact run_perm ht hdt

/-- Without conditions and milestones the two proposals lock different acceptances. -/
theorem proposals_serialise :
    let wf : IntermediateDcrWorkflow := { wfDuDe with
      dcrMilestonesOut := [], dcrMilestonesIn := [], dcrConditionsOut := [], dcrConditionsIn := [] }
    let w := (makeWorkflow wf).withMarks fun _ ↦ ⟨false, false, false⟩
    EnabledInTurn w [⟨0, 2⟩, ⟨0, 1⟩] ∧
      SameMarks ([⟨0, 2⟩, ⟨0, 1⟩].foldl setEventExecuted w)
        ([⟨0, 1⟩, ⟨0, 2⟩].foldl setEventExecuted w) := by
  intro wf w
  have h1 : ((makeWorkflow wf).getLockSet ⟨0, 1⟩).toList = [⟨0, 4⟩] := by decide +kernel
  have h2 : ((makeWorkflow wf).getLockSet ⟨0, 2⟩).toList = [⟨0, 3⟩] := by decide +kernel
  refine serialisable_of_disjoint_locks wf _ [⟨0, 1⟩, ⟨0, 2⟩] (by decide)
    (by decide +kernel) (List.pairwise_pair.mpr fun x ↦ ?_) _ (by decide)
  rw [← Std.ExtTreeSet.mem_toList, ← Std.ExtTreeSet.mem_toList, h1, h2]
  rintro (rfl | hx)
  · decide
  · rw [List.mem_singleton.mp hx]
    decide

/-- The replica that executes only `f` and the executions informing `f` agrees with the whole
workflow on the marks of `f` and on whether `f` is enabled. `src/enclave/dcr.cpp:62–73`. -/
theorem replica_agrees_with_workflow (wf : IntermediateDcrWorkflow) (f : Uid)
    (hf : f ∈ wf.eventIds) (s : List Uid) (hs : ∀ e ∈ s, e ∈ wf.eventIds) :
    let w := makeWorkflow wf
    let G := s.foldl setEventExecuted w
    let L := (s.filter fun e ↦ e = f ∨ f ∈ w.getInformSet e).foldl setEventExecuted w
    (G.event f).executed = (L.event f).executed ∧ (G.event f).pending = (L.event f).pending ∧
      (G.event f).excluded = (L.event f).excluded ∧
      (G.isEventEnabled f).1 = (L.isEventEnabled f).1 := by
  intro w G L
  have h : w.WellFormed wf.eventIds := makeWorkflow_wellFormed wf
  obtain ⟨hG, hgG, hmG⟩ := h.foldl_setEventExecuted hs
  obtain ⟨hL, hgL, hmL⟩ := h.foldl_setEventExecuted
    (s := s.filter fun e ↦ e = f ∨ f ∈ w.getInformSet e)
    fun e he ↦ hs e (List.mem_of_mem_filter he)
  have hag : AgreeAt w.graph f G.marking L.marking := by
    rw [hmG, hmL]
    refine agreeAt_filter (AgreeAt.refl _ _ _) s _ fun e _ ↦ ?_
    rw [decide_eq_true_eq, mem_getInformSet]
  refine ⟨Bool.eq_iff_iff.mpr hag.executed, Bool.eq_iff_iff.mpr hag.pending,
    Bool.eq_iff_iff.mpr (hag.excluded f (Or.inl rfl)), ?_⟩
  rw [Bool.eq_iff_iff, isEventEnabled_iff hG hf, isEventEnabled_iff hL hf, hgG, hgL]
  exact hag.enabled

/-- The first proposal is informed by no other event, so its replica executes it alone. -/
theorem proposal_replica_agrees :
    let w := makeWorkflow wfDuDe
    let G := [⟨0, 1⟩, ⟨0, 2⟩, ⟨0, 3⟩].foldl setEventExecuted w
    let L := ([⟨0, 1⟩, ⟨0, 2⟩, ⟨0, 3⟩].filter fun e ↦
      e = ⟨0, 1⟩ ∨ ⟨0, 1⟩ ∈ w.getInformSet e).foldl setEventExecuted w
    (G.isEventEnabled ⟨0, 1⟩).1 = (L.isEventEnabled ⟨0, 1⟩).1 :=
  (replica_agrees_with_workflow wfDuDe ⟨0, 1⟩ (by decide) [⟨0, 1⟩, ⟨0, 2⟩, ⟨0, 3⟩]
    (by decide)).2.2.2

/-! ### The events of a workflow -/

/-- The events a workflow lists or relates. -/
def IntermediateDcrWorkflow.events (wf : IntermediateDcrWorkflow) : List Uid :=
  wf.eventIds ++ (wf.dcrConditionsOut ++ wf.dcrMilestonesOut ++ wf.dcrIncludesOut ++
    wf.dcrExcludesOut ++ wf.dcrResponsesOut) ++ (wf.dcrConditionsIn ++ wf.dcrMilestonesIn ++
    wf.dcrIncludesIn ++ wf.dcrExcludesIn ++ wf.dcrResponsesIn)

/-- The events of a message are those it declares and those at either end of its relations. -/
theorem IntermediateDcrWorkflow.mem_events {wf : IntermediateDcrWorkflow} {x : Uid} :
    x ∈ wf.events ↔ x ∈ wf.eventIds ∨ (x ∈ wf.dcrConditionsOut ∨ x ∈ wf.dcrMilestonesOut ∨
      x ∈ wf.dcrIncludesOut ∨ x ∈ wf.dcrExcludesOut ∨ x ∈ wf.dcrResponsesOut) ∨
      x ∈ wf.dcrConditionsIn ∨ x ∈ wf.dcrMilestonesIn ∨ x ∈ wf.dcrIncludesIn ∨
      x ∈ wf.dcrExcludesIn ∨ x ∈ wf.dcrResponsesIn := by
  simp [IntermediateDcrWorkflow.events, or_assoc]

/-- All targets of the relation are listed. -/
def Relation.Into (r : Relation) (events : List Uid) : Prop :=
  ∀ e, ∀ f ∈ r.getD e [], f ∈ events

/-- A pair pushed to a listed event keeps the targets listed. -/
theorem Relation.Into.push {r : Relation} {events : List Uid} (h : r.Into events) {s t : Uid}
    (ht : t ∈ events) : (Relation.push r s t).Into events := by
  intro e f hf
  obtain ⟨-, rfl⟩ | hf := (Relation.mem_push r s t e f).mp hf
  · exact ht
  · exact h e f hf

/-- All targets of the relations that lock sets and inform sets follow are listed. -/
structure DcrWorkflow.Into (w : DcrWorkflow) (events : List Uid) : Prop where
  excludes : w.excludesTo.Into events
  includes : w.includesTo.Into events
  responses : w.responsesTo.Into events
  conditions : w.conditionsTo.Into events
  milestones : w.milestonesTo.Into events

private theorem DcrWorkflow.Into.foldl {α : Type} {events : List Uid} {w : DcrWorkflow} {l : List α}
    {step : DcrWorkflow → α → DcrWorkflow} (h : w.Into events)
    (hs : ∀ v, ∀ a ∈ l, v.Into events → (step v a).Into events) :
    (l.foldl step w).Into events :=
  foldl_keeps (P := fun w ↦ w.Into events) l w h hs

/-- The workflow handed to an enclave relates its events only. -/
theorem makeWorkflow_into (wf : IntermediateDcrWorkflow) : (makeWorkflow wf).Into wf.events := by
  have related (x : Uid) := @IntermediateDcrWorkflow.mem_events wf x
  have target {sources targets : List Uid} {r : Uid × Uid} (hr : r ∈ sources.zip targets)
      (sub : ∀ x ∈ targets, x ∈ wf.events) : r.2 ∈ wf.events := sub _ (List.of_mem_zip hr).2
  have none : (∅ : Relation).Into wf.events := by
    intro e f hf
    simp at hf
  have start : DcrWorkflow.empty.Into wf.events := ⟨none, none, none, none, none⟩
  unfold makeWorkflow
  refine DcrWorkflow.Into.foldl ?_ fun v r hr hv ↦
    { hv with responses := hv.responses.push (target hr fun _ h ↦ by simp [related, h]) }
  refine DcrWorkflow.Into.foldl ?_ fun v r hr hv ↦
    { hv with includes := hv.includes.push (target hr fun _ h ↦ by simp [related, h]) }
  refine DcrWorkflow.Into.foldl ?_ fun v r hr hv ↦
    { hv with excludes := hv.excludes.push (target hr fun _ h ↦ by simp [related, h]) }
  refine DcrWorkflow.Into.foldl ?_ fun v r hr hv ↦
    { hv with milestones := hv.milestones.push (target hr fun _ h ↦ by simp [related, h]) }
  refine DcrWorkflow.Into.foldl ?_ fun v r hr hv ↦
    { hv with conditions := hv.conditions.push (target hr fun _ h ↦ by simp [related, h]) }
  refine DcrWorkflow.Into.foldl ?_ fun v _ _ hv ↦ { hv with }
  refine DcrWorkflow.Into.foldl ?_ fun v _ _ hv ↦ { hv with }
  refine DcrWorkflow.Into.foldl ?_ fun v _ _ hv ↦ { hv with }
  exact start.foldl fun v _ _ hv ↦ { hv with }

/-- Who is locked is informed. -/
theorem mem_getInformSet_of_mem_getLockSet {w : DcrWorkflow} {e f : Uid}
    (h : f ∈ w.getLockSet e) : f ∈ w.getInformSet e := by
  rw [mem_getInformSet]
  exact Or.inl (Or.inl ((mem_getLockSet w e f).mp h))

/-- Inform sets hold events of the workflow only. -/
theorem mem_events_of_mem_getInformSet {wf : IntermediateDcrWorkflow} {e f : Uid}
    (h : f ∈ (makeWorkflow wf).getInformSet e) : f ∈ wf.events := by
  have into := makeWorkflow_into wf
  have touched {a : Uid} (ha : a ∈ touched (makeWorkflow wf).graph e) : a ∈ wf.events := by
    obtain (ha | ha) | ha := ha
    · exact into.excludes e a ha
    · exact into.includes e a ha
    · exact into.responses e a ha
  have constrained {a : Uid}
      (ha : f ∈ (makeWorkflow wf).graph.conditions a ∪ (makeWorkflow wf).graph.milestones a) :
      f ∈ wf.events := by
    obtain ha | ha := ha
    · exact into.conditions a f ha
    · exact into.milestones a f ha
  rw [mem_getInformSet] at h
  obtain ((h | ⟨a, -, h⟩) | h) | h := h
  · exact touched h
  · exact constrained h
  · exact constrained (Or.inl h)
  · exact constrained (Or.inr h)

end TrustedDcr.Dcr
