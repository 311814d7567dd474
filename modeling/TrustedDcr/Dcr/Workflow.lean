import TrustedDcr.Msg.Uid

/-!
# The workflow held by an enclave

`dcr_workflow` of `src/enclave/dcr.h` and `src/enclave/dcr.cpp`. Reading
`event_store[k]` inserts a zero record at an unknown `k`, and the record's own
`id` field, not the key, selects the relations that are consulted; both are kept.
A missing relation list reads as empty, so the empty vectors that `operator[]`
leaves in the relation maps are not represented.
-/

namespace TrustedDcr.Dcr
open TrustedDcr.Msg

/-- `dcr_event`. `src/enclave/dcr.h:9–15`. -/
structure DcrEvent where
  id : Uid
  executed : Bool
  excluded : Bool
  pending : Bool
  deriving DecidableEq, Repr

/-- The value-initialised record that `event_store[k]` inserts. -/
def zeroEvent : DcrEvent := ⟨emptyUid, false, false, false⟩

/-- A relation: the listed targets of each source, in insertion order. -/
abbrev Relation := UidMap (List Uid)

/-- `dcr_workflow`. `src/enclave/dcr.h:17–39`. -/
structure DcrWorkflow where
  eventStore : UidMap DcrEvent
  excludesTo : Relation
  includesTo : Relation
  responsesTo : Relation
  conditionsTo : Relation
  milestonesTo : Relation
  conditionsFrom : Relation
  milestonesFrom : Relation

namespace DcrWorkflow

/-- The default-constructed workflow. -/
def empty : DcrWorkflow := ⟨∅, ∅, ∅, ∅, ∅, ∅, ∅, ∅⟩

/-- What evaluating `event_store[k]` leaves behind. -/
def touch (w : DcrWorkflow) (k : Uid) : DcrWorkflow :=
  if k ∈ w.eventStore then w else { w with eventStore := w.eventStore.insert k zeroEvent }

/-- The record that `event_store[k]` refers to. -/
def event (w : DcrWorkflow) (k : Uid) : DcrEvent := w.eventStore.getD k zeroEvent

/-- An assignment to a field of `event_store[k]`. -/
def modifyEvent (w : DcrWorkflow) (k : Uid) (f : DcrEvent → DcrEvent) : DcrWorkflow :=
  { w with eventStore := w.eventStore.insert k (f (w.event k)) }

/-- The constraint loops of `is_event_enabled`, which stop at the first event that `blocks`.
`src/enclave/dcr.cpp:9–12,14–17`. -/
def noneBlocks (blocks : DcrEvent → Bool) : List Uid → DcrWorkflow → Bool × DcrWorkflow
  | [], w => (true, w)
  | c :: cs, w =>
    if blocks ((w.touch c).event c) then (false, w.touch c) else noneBlocks blocks cs (w.touch c)

/-- The answer of `is_event_enabled` and the workflow it leaves. `src/enclave/dcr.cpp:3–20`. -/
def isEventEnabled (w : DcrWorkflow) (eventId : Uid) : Bool × DcrWorkflow :=
  let w := w.touch eventId
  let event := w.event eventId
  if event.excluded then (false, w)
  else
    let (met, w) := noneBlocks (fun c ↦ !c.executed && !c.excluded)
      (w.conditionsFrom.getD event.id []) w
    if !met then (false, w)
    else noneBlocks (fun m ↦ m.pending && !m.excluded) (w.milestonesFrom.getD event.id []) w

/-- `set_event_executed`. `src/enclave/dcr.cpp:22–38`. -/
def setEventExecuted (w : DcrWorkflow) (eventId : Uid) : DcrWorkflow :=
  let event := w.event eventId
  let w := w.modifyEvent eventId fun e ↦ { e with executed := true }
  let w := w.modifyEvent eventId fun e ↦ { e with pending := false }
  let w := (w.excludesTo.getD event.id []).foldl
    (fun w x ↦ w.modifyEvent x fun e ↦ { e with excluded := true }) w
  let w := (w.includesTo.getD event.id []).foldl
    (fun w x ↦ w.modifyEvent x fun e ↦ { e with excluded := false }) w
  (w.responsesTo.getD event.id []).foldl
    (fun w x ↦ w.modifyEvent x fun e ↦ { e with pending := true }) w

/-- `get_lock_set`. `src/enclave/dcr.cpp:40–60`. -/
def getLockSet (w : DcrWorkflow) (eventId : Uid) : UidSet :=
  let lockSet := (((∅ : UidSet).insertMany (w.excludesTo.getD eventId [])).insertMany
    (w.includesTo.getD eventId [])).insertMany (w.responsesTo.getD eventId [])
  let constraints := lockSet.toList.foldl (fun cs stateLock ↦
    (cs.insertMany (w.conditionsTo.getD stateLock [])).insertMany
      (w.milestonesTo.getD stateLock [])) (∅ : UidSet)
  constraints.toList.foldl (fun lockSet constraint ↦ lockSet.insert constraint) lockSet

/-- `get_inform_set`. `src/enclave/dcr.cpp:62–73`. -/
def getInformSet (w : DcrWorkflow) (eventId : Uid) : UidSet :=
  (((∅ : UidSet).insertMany (w.getLockSet eventId).toList).insertMany
    (w.conditionsTo.getD eventId [])).insertMany (w.milestonesTo.getD eventId [])

end DcrWorkflow

/-- `intermediate_dcr_worflow`, each counted array as a list.
`src/enclave/intermediate_types.h:4–27`. -/
structure IntermediateDcrWorkflow where
  eventIds : List Uid
  excluded : List Uid
  pending : List Uid
  executed : List Uid
  dcrConditionsOut : List Uid
  dcrConditionsIn : List Uid
  dcrMilestonesOut : List Uid
  dcrMilestonesIn : List Uid
  dcrIncludesOut : List Uid
  dcrIncludesIn : List Uid
  dcrExcludesOut : List Uid
  dcrExcludesIn : List Uid
  dcrResponsesOut : List Uid
  dcrResponsesIn : List Uid

/-- `relation[source].push_back(target)`. -/
def Relation.push (r : Relation) (source target : Uid) : Relation :=
  r.insert source (r.getD source [] ++ [target])

/-- `make_workflow`. `src/enclave/dcr.cpp:200–241`. -/
def makeWorkflow (wf : IntermediateDcrWorkflow) : DcrWorkflow :=
  let newWf := DcrWorkflow.empty
  let newWf := wf.eventIds.foldl (fun w id ↦
    { w with eventStore := w.eventStore.insert id { zeroEvent with id := id } }) newWf
  let newWf := wf.excluded.foldl
    (fun w id ↦ w.modifyEvent id fun e ↦ { e with excluded := true }) newWf
  let newWf := wf.pending.foldl
    (fun w id ↦ w.modifyEvent id fun e ↦ { e with pending := true }) newWf
  let newWf := wf.executed.foldl
    (fun w id ↦ w.modifyEvent id fun e ↦ { e with executed := true }) newWf
  let newWf := (wf.dcrConditionsOut.zip wf.dcrConditionsIn).foldl (fun w r ↦
    { w with
      conditionsTo := Relation.push w.conditionsTo r.1 r.2
      conditionsFrom := Relation.push w.conditionsFrom r.2 r.1 }) newWf
  let newWf := (wf.dcrMilestonesOut.zip wf.dcrMilestonesIn).foldl (fun w r ↦
    { w with
      milestonesTo := Relation.push w.milestonesTo r.1 r.2
      milestonesFrom := Relation.push w.milestonesFrom r.2 r.1 }) newWf
  let newWf := (wf.dcrExcludesOut.zip wf.dcrExcludesIn).foldl (fun w r ↦
    { w with excludesTo := Relation.push w.excludesTo r.1 r.2 }) newWf
  let newWf := (wf.dcrIncludesOut.zip wf.dcrIncludesIn).foldl (fun w r ↦
    { w with includesTo := Relation.push w.includesTo r.1 r.2 }) newWf
  (wf.dcrResponsesOut.zip wf.dcrResponsesIn).foldl (fun w r ↦
    { w with responsesTo := Relation.push w.responsesTo r.1 r.2 }) newWf

end TrustedDcr.Dcr
