import TrustedDcr.Enclave.Ecalls
import TrustedDcr.Dcr.Refinement
import TrustedDcr.Theory.Program

/-!
# What the helpers of a call leave alone

Most of what a call does concerns neither its cluster's log nor the locks of its
event: routing tables, timers, requests awaiting a response. `Aside` says so of
one change of the enclave, and every helper with no other effect keeps to it.
-/

namespace TrustedDcr.Enclave
open TrustedDcr.Msg TrustedDcr.Dcr TrustedDcr.Dcr.DcrWorkflow TrustedDcr.Theory

/-- What the replication inside a cluster reads of a peer. -/
structure Node where
  id : Uid
  clusterMembers : List Uid
  clusterSize : Nat
  term : Nat
  role : Role
  log : List Entry
  commitIndex : Nat
  endorsement : Uid
  electionVotes : Nat

/-- The entries up to the commit index. -/
def Node.committed (n : Node) : List Entry := n.log.take (n.commitIndex + 1)

/-- A peer as its cluster sees it. -/
def Peer.node (p : Peer) : Node where
  id := p.id
  clusterMembers := p.clusterMembers
  clusterSize := p.clusterSize
  term := p.term
  role := p.role
  log := p.log
  commitIndex := p.commitIndex
  endorsement := p.endorsement
  electionVotes := p.electionVotes

end TrustedDcr.Enclave

namespace TrustedDcr.Msg

/-- Source, target and term of a message between the members of a cluster. -/
structure Letter where
  source : Uid
  target : Uid
  term : Nat
  deriving DecidableEq

/-- Commands and requests for logs carry no term. -/
def Message.letter : Message → Option Letter
  | .appendReq req => some ⟨req.source, req.target, req.term⟩
  | .appendRsp rsp => some ⟨rsp.source, rsp.target, rsp.term⟩
  | .pollReq req => some ⟨req.source, req.target, req.term⟩
  | .pollRsp rsp => some ⟨rsp.source, rsp.target, rsp.term⟩
  | .electionReq req => some ⟨req.source, req.target, req.term⟩
  | .electionRsp rsp => some ⟨rsp.source, rsp.target, rsp.term⟩
  | .commandReq _ | .commandRsp _ | .logReq _ | .logRsp _ => none

end TrustedDcr.Msg

namespace TrustedDcr.Enclave
open TrustedDcr.Msg TrustedDcr.Dcr TrustedDcr.Dcr.DcrWorkflow TrustedDcr.Theory

/-- Entries executed one after the other, as both loops of `update_commit_index` do it.
`src/enclave/enclave.cpp:354–357,373`. -/
def executeEntries (w : DcrWorkflow) (entries : List Entry) : DcrWorkflow :=
  entries.foldl (fun w entry ↦
    if entry.tag.type = .exec then w.setEventExecuted entry.event else w) w

/-- Executing two batches in a row is executing both in one. -/
theorem executeEntries_append (w : DcrWorkflow) (entries entries' : List Entry) :
    executeEntries w (entries ++ entries') = executeEntries (executeEntries w entries) entries' :=
  List.foldl_append

/-- The same executions in workflows that read the same. -/
theorem sameReads_executeEntries {w v : DcrWorkflow} (h : SameReads w v) (entries : List Entry) :
    SameReads (executeEntries w entries) (executeEntries v entries) := by
  induction entries generalizing w v with
  | nil => exact h
  | cons entry entries ih =>
    unfold executeEntries
    rw [List.foldl_cons, List.foldl_cons]
    split
    · exact ih (h.setEventExecuted entry.event)
    · exact ih h

/-- Executing entries changes marks only. -/
theorem sameGraph_executeEntries (w : DcrWorkflow) (entries : List Entry) :
    SameGraph w (executeEntries w entries) := by
  induction entries generalizing w with
  | nil => exact SameGraph.refl w
  | cons entry entries ih =>
    unfold executeEntries
    rw [List.foldl_cons]
    split
    · exact (sameGraph_setEventExecuted _ _).trans (ih _)
    · exact ih _

/-- A change outside the replicated log and the locks of the own event, with messages that carry
no term, and with the entries executed in the workflow. -/
structure Executes (entries : List Entry) (s t : EnclaveState) : Prop where
  node : t.self.node = s.self.node
  clusterEvent : t.self.clusterEvent = s.self.clusterEvent
  lockedEvents : t.self.lockedEvents = s.self.lockedEvents
  workflow : SameReads (executeEntries s.self.workflow entries) t.self.workflow
  mapped : ∀ {k v : Uid}, s.self.peerToEventMap[k]? = some v → t.self.peerToEventMap[k]? = some v
  sent : ∃ ms, t.sent = s.sent ++ ms ∧ ∀ m ∈ ms, m.letter = none
  drawn : ∃ ds, t.drawn = s.drawn ++ ds

/-- Such a change that executes nothing. -/
abbrev Aside : EnclaveState → EnclaveState → Prop := Executes []

/-- One such change after another. -/
protected theorem Executes.trans {entries entries' : List Entry} {s t u : EnclaveState}
    (st : Executes entries s t) (tu : Executes entries' t u) :
    Executes (entries ++ entries') s u where
  node := tu.node.trans st.node
  clusterEvent := tu.clusterEvent.trans st.clusterEvent
  lockedEvents := tu.lockedEvents.trans st.lockedEvents
  workflow := by
    rw [executeEntries_append]
    exact (sameReads_executeEntries st.workflow entries').trans tu.workflow
  mapped h := tu.mapped (st.mapped h)
  sent := by
    obtain ⟨ms, hms, hm⟩ := st.sent
    obtain ⟨ns, hns, hn⟩ := tu.sent
    refine ⟨ms ++ ns, by rw [hns, hms, List.append_assoc], fun m hmem ↦ ?_⟩
    exact (List.mem_append.mp hmem).elim (hm m) (hn m)
  drawn := by
    obtain ⟨ds, hds⟩ := st.drawn
    obtain ⟨es, hes⟩ := tu.drawn
    exact ⟨ds ++ es, by rw [hes, hds, List.append_assoc]⟩

/-- What was sent before stays sent. -/
theorem Executes.sent_isPrefix {entries : List Entry} {s t : EnclaveState}
    (h : Executes entries s t) : s.sent <+: t.sent := by
  obtain ⟨ms, hms, -⟩ := h.sent
  exact ⟨ms, hms.symm⟩

/-- A change of `self` alone. -/
theorem Executes.of_self {entries : List Entry} {s : EnclaveState} {p : Peer}
    (node : p.node = s.self.node) (clusterEvent : p.clusterEvent = s.self.clusterEvent)
    (lockedEvents : p.lockedEvents = s.self.lockedEvents)
    (workflow : SameReads (executeEntries s.self.workflow entries) p.workflow)
    (mapped : ∀ {k v : Uid}, s.self.peerToEventMap[k]? = some v → p.peerToEventMap[k]? = some v) :
    Executes entries s { s with self := p } where
  node := node
  clusterEvent := clusterEvent
  lockedEvents := lockedEvents
  workflow := workflow
  mapped := mapped
  sent := ⟨[], (List.append_nil _).symm, fun _ hm ↦ nomatch hm⟩
  drawn := ⟨[], (List.append_nil _).symm⟩

namespace Aside

/-- Doing nothing. -/
protected theorem refl (s : EnclaveState) : Aside s s :=
  Executes.of_self rfl rfl rfl (SameReads.refl _) id

/-- Two changes outside the replicated log are one. -/
protected theorem trans {s t u : EnclaveState} (st : Aside s t) (tu : Aside t u) : Aside s u :=
  Executes.trans st tu

/-- The workflow was read at most. -/
theorem reads {s t : EnclaveState} (h : Aside s t) : SameReads s.self.workflow t.self.workflow :=
  h.workflow

instance : Std.Refl Aside := ⟨Aside.refl⟩
instance : IsTrans EnclaveState Aside := ⟨fun _ _ _ ↦ Aside.trans⟩

end Aside

/-! ### The primitives -/

section Primitives
variable {s : EnclaveState}

/-- Reading the peer before the rest of a call. -/
theorem getSelf_bind {α : Type} {g : Peer → Ecall α} : (getSelf >>= g) s = g s.self s := rfl

/-- Reading `self` gives the peer. -/
theorem wp_getSelf {Q : Peer → EnclaveState → Prop} : wp getSelf Q s ↔ Q s.self s := by
  unfold getSelf
  rw [wp_bind, wp_get, wp_pure]

/-- An assignment to `self` is judged on the peer it makes. -/
theorem wp_modifySelf {f : Peer → Peer} {Q : PUnit → EnclaveState → Prop} :
    wp (modifySelf f) Q s ↔ Q ⟨⟩ { s with self := f s.self } := wp_modify

/-- Reading `self` changes nothing. -/
theorem along_getSelf {R : EnclaveState → EnclaveState → Prop} [Std.Refl R] : Along R getSelf :=
  fun s ↦ wp_getSelf.mpr (Std.Refl.refl s)

/-- An assignment before the rest of a call, whose state is given a name. -/
theorem wp_bind_modifySelf {α : Type} {f : Peer → Peer} {g : PUnit → Ecall α}
    {Q : α → EnclaveState → Prop} (h : ∀ t, t = { s with self := f s.self } → wp (g ⟨⟩) Q t) :
    wp (modifySelf f >>= g) Q s := wp_bind.mpr (wp_modifySelf.mpr (h _ rfl))

/-- A message sent is the last one sent. -/
theorem wp_macAndSendMsg {msg : Message} {Q : PUnit → EnclaveState → Prop} :
    wp (macAndSendMsg msg) Q s ↔ Q ⟨⟩ { s with sent := s.sent ++ [msg] } := wp_modify

/-- Messages broadcast are sent in their order. -/
theorem wp_macAndBroadcastMsgs {msgs : List Message} {Q : PUnit → EnclaveState → Prop} :
    wp (macAndBroadcastMsgs msgs) Q s ↔ Q ⟨⟩ { s with sent := s.sent ++ msgs } := wp_modify

end Primitives

/-- Messages without a term are beside the log. -/
theorem aside_macAndBroadcastMsgs {msgs : List Message} (h : ∀ m ∈ msgs, m.letter = none) :
    Along Aside (macAndBroadcastMsgs msgs) := fun s ↦
  wp_macAndBroadcastMsgs.mpr { Aside.refl s with sent := ⟨msgs, rfl, h⟩ }

/-- A message without a term is beside the log. -/
theorem aside_macAndSendMsg {msg : Message} (h : msg.letter = none) :
    Along Aside (macAndSendMsg msg) := fun s ↦
  wp_macAndSendMsg.mpr { Aside.refl s with
    sent := ⟨[msg], rfl, fun _ hm ↦ List.mem_singleton.mp hm ▸ h⟩ }

/-- Drawing an identifier is beside the log. -/
theorem aside_generateRandomUid (o : Oracle) : Along Aside (generateRandomUid o) :=
  (Along.modify fun s ↦ { Aside.refl s with drawn := ⟨[o.uid], rfl⟩ }).bind fun _ ↦
    Along.pure _

/-- An assignment to fields other than those of `Aside`. -/
theorem aside_modifySelf {f : Peer → Peer} (h : ∀ p, (f p).node = p.node ∧
    (f p).clusterEvent = p.clusterEvent ∧ (f p).lockedEvents = p.lockedEvents ∧
    (f p).workflow = p.workflow ∧ (f p).peerToEventMap = p.peerToEventMap) :
    Along Aside (modifySelf f) := fun s ↦ by
  obtain ⟨hn, hc, hl, hw, hm⟩ := h s.self
  refine wp_modifySelf.mpr (Executes.of_self hn hc hl ?_ fun hk ↦ hm ▸ hk)
  rw [hw]
  exact SameReads.refl _

/-! ### The helpers -/

/-- Looking a leader up stays outside the replicated log. -/
theorem aside_leaderMapAt (event : Uid) : Along Aside (leaderMapAt event) := by
  unfold leaderMapAt
  refine along_getSelf.bind fun self ↦ ?_
  split
  · exact Along.pure _
  · exact (aside_modifySelf (by simp [Peer.node])).bind fun _ ↦ Along.pure _

/-- Looking up a peer's event may enter the empty one for an unknown peer. -/
theorem peerToEventMapAt_spec (peer : Uid) (s : EnclaveState) :
    wp (peerToEventMapAt peer) (fun event t ↦ Aside s t ∧
      event = s.self.peerToEventMap.getD peer emptyUid ∧
      t.self.peerToEventMap[peer]? = some event) s := by
  unfold peerToEventMapAt
  rw [wp_bind, wp_getSelf]
  rw [Std.ExtTreeMap.getD_eq_getD_getElem?]
  cases hp : s.self.peerToEventMap[peer]? with
  | some event => exact wp_pure.mpr ⟨Aside.refl s, rfl, hp⟩
  | none =>
    rw [wp_bind, wp_modifySelf, wp_pure]
    refine ⟨Executes.of_self rfl rfl rfl (SameReads.refl _) fun {k v} hk ↦ ?_, rfl, ?_⟩
    · rw [Std.ExtTreeMap.getElem?_insert, if_neg, hk]
      intro he
      rw [Std.LawfulEqCmp.compare_eq_iff_eq.mp he, hk] at hp
      exact nomatch hp
    · simp

/-- Looking a peer's event up stays outside the replicated log. -/
theorem aside_peerToEventMapAt (peer : Uid) : Along Aside (peerToEventMapAt peer) := fun s ↦
  wp_mono (peerToEventMapAt_spec peer s) fun _ _ h ↦ h.1

/-- `update_timeout` stays outside the replicated log. -/
theorem aside_updateTimeout (o : Oracle) : Along Aside (updateTimeout o) := by
  unfold updateTimeout
  refine aside_modifySelf fun p ↦ ?_
  split <;> simp [Peer.node]

private theorem aside_eventLeader (o : Oracle) (tag : CommandTag) (eventId : Uid) :
    Along Aside (eventLeader o tag eventId) := by
  unfold eventLeader
  refine along_getSelf.bind fun self ↦ ?_
  split
  · exact Along.pure _
  · split
    · exact (aside_modifySelf (by simp [Peer.node])).bind fun _ ↦ Along.pure _
    · exact Along.pure _

/-- The filed request is a command. -/
theorem fileCommand_spec (o : Oracle) (tag : CommandTag) (eventId : Uid) (s : EnclaveState) :
    wp (fileCommand o tag eventId) (fun m t ↦ Aside s t ∧ m.letter = none) s := by
  unfold fileCommand
  refine wp_bind_along (aside_eventLeader o tag eventId) fun leader t ht ↦ ?_
  refine wp_bind_along (R := Aside) along_getSelf fun self u hu ↦ ?_
  refine wp_bind_along (aside_modifySelf (by simp [Peer.node])) fun _ v hv ↦ wp_pure.mpr ?_
  exact ⟨(ht.trans hu).trans hv, rfl⟩

private theorem aside_sendCommands (o : Oracle) (tag : CommandTag) (events : List Uid) :
    Along Aside (sendCommands o tag events) := fun s ↦ by
  unfold sendCommands
  rw [wp_bind]
  refine wp_mono (wp_mapM (R := Aside) (P := fun m ↦ m.letter = none)
    (fun e _ u ↦ fileCommand_spec o tag e u) s) fun reqs t ⟨hst, hreqs⟩ ↦ ?_
  exact wp_mono (aside_macAndBroadcastMsgs hreqs t) fun _ _ htu ↦ hst.trans htu

private theorem aside_sendLockRequests (o : Oracle) (tagId : Uid) :
    Along Aside (sendLockRequests o tagId) :=
  along_getSelf.bind fun _ ↦ aside_sendCommands o _ _

/-- `send_execution` stays outside the replicated log. -/
theorem aside_sendExecution (o : Oracle) (tagId : Uid) : Along Aside (sendExecution o tagId) :=
  along_getSelf.bind fun _ ↦ aside_sendCommands o _ _

/-! ### The leader's loop -/

/-- What the leader's loop does with one entry, and the response it collects. -/
def commitEntry (o : Oracle) (round : Nat) (entry : Entry) : Ecall (Option CommandRsp) := do
  if entry.tag.type = .checkpoint then
    modifySelf fun p ↦ { p with lastCheckpoint := entry.index }
    return none
  else
    if entry.tag.type = .exec then
      modifySelf fun p ↦ { p with workflow := p.workflow.setEventExecuted entry.event }
    let self ← getSelf
    if uidsEqual entry.event self.clusterEvent && entry.tag.type == .lock then
      sendLockRequests o entry.tag.uid
      return none
    else
      if entry.tag.type = .abort then
        let locked ← self.entryAtInt self.lockedEntryIndex
        if uidsEqual entry.event locked.event then
          modifySelf fun p ↦ { p with lockedEntryIndex := -1 }
        return some (o.junkRsp round)
      else return some (commitRsp self.id entry)

/-- The loop goes through its entries one by one. -/
theorem commitEntries_cons (o : Oracle) (round : Nat) (entry : Entry) (entries : List Entry) :
    commitEntries o round (entry :: entries) = do
      let rsp ← commitEntry o round entry
      let rsps ← commitEntries o (round + 1) entries
      return rsp.toList ++ rsps := by
  rw [commitEntries]
  unfold commitEntry
  by_cases check : entry.tag.type = .checkpoint
  · simp [check]
  · by_cases exec : entry.tag.type = .exec
    · simp [exec]
    · by_cases abort : entry.tag.type = .abort
      · simp only [abort, reduceCtorEq, reduceIte, beq_iff_eq, Bool.and_eq_true, and_false,
          bind_assoc, pure_bind]
        congr 1
        funext self
        congr 1
        funext locked
        split <;> simp
      · simp only [check, exec, abort, reduceIte, bind_assoc, pure_bind]
        congr 1
        funext self
        split <;> simp

/-- A batch commits its first entry and then the rest, and answers in that order. -/
theorem wp_commitEntries_cons {o : Oracle} {round : Nat} {entry : Entry} {entries : List Entry}
    {Q : List CommandRsp → EnclaveState → Prop} {s : EnclaveState} :
    wp (commitEntries o round (entry :: entries)) Q s ↔ wp (commitEntry o round entry)
      (fun rsp t ↦ wp (commitEntries o (round + 1) entries)
        (fun rsps u ↦ Q (rsp.toList ++ rsps) u) t) s := by
  rw [commitEntries_cons, wp_bind]
  simp only [wp_bind, wp_pure]

/-- The five things that can become of an entry. -/
theorem wp_commitEntry {o : Oracle} {round : Nat} {entry : Entry}
    {Q : Option CommandRsp → EnclaveState → Prop} {s : EnclaveState}
    (checkpoint : entry.tag.type = .checkpoint →
      Q none { s with self := { s.self with lastCheckpoint := entry.index } })
    (own : entry.tag.type = .lock → entry.event = s.self.clusterEvent →
      wp (sendLockRequests o entry.tag.uid) (fun _ t ↦ Q none t) s)
    (foreign : entry.tag.type = .lock → entry.event ≠ s.self.clusterEvent →
      Q (some (commitRsp s.self.id entry)) s)
    (exec : entry.tag.type = .exec → Q (some (commitRsp s.self.id entry))
      { s with self := { s.self with workflow := s.self.workflow.setEventExecuted entry.event } })
    (abort : entry.tag.type = .abort → ∀ locked,
      s.self.entryAtInt s.self.lockedEntryIndex = .ok locked → Q (some (o.junkRsp round))
        { s with self := { s.self with
            lockedEntryIndex := if entry.event = locked.event then -1
              else s.self.lockedEntryIndex } }) :
    wp (commitEntry o round entry) Q s := by
  unfold commitEntry
  cases type : entry.tag.type with
  | checkpoint =>
    rw [if_pos rfl]
    exact wp_bind_modifySelf fun t ht ↦ wp_pure.mpr (ht ▸ checkpoint type)
  | exec =>
    rw [if_neg (by simp), if_pos rfl]
    refine wp_bind_modifySelf fun t ht ↦ ?_
    rw [wp_bind, wp_getSelf, if_neg (by simp), if_neg (by simp), wp_pure, ht]
    exact exec type
  | abort =>
    rw [if_neg (by simp), if_neg (by simp)]
    dsimp only
    rw [wp_bind, wp_getSelf, if_neg (by simp), if_pos rfl, wp_bind, wp_lift]
    intro locked hlocked
    have released := abort type locked hlocked
    by_cases same : entry.event = locked.event
    · rw [if_pos same] at released
      rw [if_pos (by simpa using same)]
      exact wp_bind_modifySelf fun t ht ↦ wp_pure.mpr (ht ▸ released)
    · rw [if_neg same] at released
      rw [if_neg (by simpa using same)]
      exact wp_pure.mpr released
  | lock =>
    rw [if_neg (by simp), if_neg (by simp)]
    dsimp only
    rw [wp_bind, wp_getSelf]
    by_cases same : entry.event = s.self.clusterEvent
    · rw [if_pos (by simpa using same), wp_bind]
      exact wp_mono (own type same) fun _ _ h ↦ wp_pure.mpr h
    · rw [if_neg (by simpa using same), if_neg (by simp), wp_pure]
      exact foreign type same

/-- The leader's loop executes the entries. -/
theorem executes_commitEntries (o : Oracle) (round : Nat) (entries : List Entry)
    (s : EnclaveState) : wp (commitEntries o round entries) (fun _ t ↦ Executes entries s t) s := by
  induction entries generalizing round s with
  | nil => exact wp_pure.mpr (Aside.refl s)
  | cons entry entries ih =>
    have one : wp (commitEntry o round entry) (fun _ t ↦ Executes [entry] s t) s := by
      have executed {w : DcrWorkflow} (h : w = executeEntries s.self.workflow [entry]) :
          SameReads (executeEntries s.self.workflow [entry]) w := h ▸ SameReads.refl _
      refine wp_commitEntry ?_ ?_ ?_ ?_ ?_
      · intro type
        exact Executes.of_self rfl rfl rfl (executed (by simp [executeEntries, type])) id
      · intro type _
        refine wp_mono (aside_sendLockRequests o _ s) fun _ t ht ↦ ?_
        have quiet : Executes [entry] s s := Executes.of_self rfl rfl rfl
          (executed (by simp [executeEntries, type])) id
        exact quiet.trans ht
      · intro type _
        exact Executes.of_self rfl rfl rfl (executed (by simp [executeEntries, type])) id
      · intro type
        exact Executes.of_self rfl rfl rfl (executed (by simp [executeEntries, type])) id
      · intro type _ _
        exact Executes.of_self rfl rfl rfl (executed (by simp [executeEntries, type])) id
    rw [wp_commitEntries_cons]
    exact wp_mono one fun _ t ht ↦ wp_mono (ih _ t) fun _ _ hu ↦ ht.trans hu

/-- What `self.log[i]` reads is the entry at `i`. -/
theorem entryAt_ok {q : Peer} {i : Nat} {e : Entry} (h : q.entryAt i = .ok e) :
    q.log[i]? = some e := by
  unfold Peer.entryAt at h
  split at h
  · next e' he =>
    cases h
    exact he
  · exact nomatch h

/-- A scan that finds nothing has tested every position. -/
theorem Peer.firstIndex_eq_none {test : Nat → Except Fault Bool} {is : List Nat}
    (h : firstIndex test is = .ok none) : ∀ i ∈ is, test i = .ok false := by
  induction is with
  | nil => exact fun _ hi ↦ nomatch hi
  | cons j is ih =>
    unfold firstIndex at h
    cases hj : test j with
    | error =>
      rw [hj] at h
      exact nomatch h
    | ok found =>
      rw [hj] at h
      cases found with
      | true => exact nomatch h
      | false => exact List.forall_mem_cons.mpr ⟨hj, ih h⟩

/-- A position that is found has passed the test. -/
theorem Peer.firstIndex_eq_some {test : Nat → Except Fault Bool} {is : List Nat} {i : Nat}
    (h : firstIndex test is = .ok (some i)) : i ∈ is ∧ test i = .ok true := by
  induction is with
  | nil => exact nomatch h
  | cons j is ih =>
    unfold firstIndex at h
    cases hj : test j with
    | error =>
      rw [hj] at h
      exact nomatch h
    | ok found =>
      rw [hj] at h
      cases found with
      | true =>
        obtain rfl := Option.some.inj (Except.ok.inj h)
        exact ⟨List.mem_cons_self, hj⟩
      | false =>
        obtain ⟨hi, hfound⟩ := ih h
        exact ⟨List.mem_cons_of_mem _ hi, hfound⟩

/-- Newly committed entries are a section of the log. -/
theorem newlyCommitted_ok {p : Peer} {newIndex : Nat} {entries : List Entry}
    (h : newlyCommitted p newIndex = .ok entries) :
    entries = (p.log.take (newIndex + 1)).drop (p.commitIndex + 1) := by
  have section_eq (i k : Nat) (es : List Entry) (hes : (List.range' i k).mapM p.entryAt = .ok es) :
      es = (p.log.drop i).take k := by
    induction k generalizing i es with
    | zero =>
      cases hes
      simp
    | succ k ih =>
      rw [List.range'_succ, List.mapM_cons] at hes
      cases hi : p.entryAt i with
      | error =>
        rw [hi] at hes
        exact nomatch hes
      | ok e =>
        cases hk : (List.range' (i + 1) k).mapM p.entryAt with
        | error =>
          rw [hi, hk] at hes
          exact nomatch hes
        | ok es' =>
          rw [hi, hk] at hes
          cases hes
          have he := entryAt_ok hi
          obtain ⟨hlt, rfl⟩ := List.getElem?_eq_some_iff.mp he
          rw [ih _ _ hk, List.drop_eq_getElem_cons hlt, List.take_succ_cons]
  rw [section_eq _ _ _ h, List.drop_take]
  congr 1
  omega

/-- The commit index is set and the workflow executes what is newly committed; a peer other than
a leader sends nothing. -/
theorem updateCommitIndex_spec (o : Oracle) (newIndex : Nat) (s : EnclaveState) :
    wp (updateCommitIndex o newIndex) (fun _ t ↦ ∃ u,
      Executes ((s.self.log.take (newIndex + 1)).drop (s.self.commitIndex + 1)) s u ∧
      (s.self.role ≠ .leader → u.sent = s.sent ∧ u.drawn = s.drawn) ∧
      t = { u with self := { u.self with commitIndex := newIndex } }) s := by
  unfold updateCommitIndex
  rw [wp_bind, wp_getSelf, wp_bind, wp_lift]
  intro committed hcommitted
  rw [← newlyCommitted_ok hcommitted, wp_ite]
  constructor
  · intro _
    rw [wp_bind, wp_modifySelf, wp_modifySelf]
    refine ⟨{ s with self := { s.self with workflow := executeEntries s.self.workflow committed } },
      ?_, fun _ ↦ ⟨rfl, rfl⟩, rfl⟩
    exact Executes.of_self rfl rfl rfl (SameReads.refl _) id
  · intro hleader
    rw [wp_bind]
    refine wp_mono (executes_commitEntries o 0 committed s) fun responses t ht ↦ ?_
    have hsend : ∀ m ∈ responses.map Message.commandRsp, m.letter = none := by
      intro m hm
      obtain ⟨rsp, -, rfl⟩ := List.mem_map.mp hm
      rfl
    refine wp_bind_along (aside_macAndBroadcastMsgs hsend) fun _ u hu ↦ ?_
    rw [wp_modifySelf]
    refine ⟨u, ?_, fun hne ↦ absurd hne hleader, rfl⟩
    rw [← List.append_nil committed]
    exact ht.trans hu

/-- A request sent again stays outside the replicated log. -/
theorem aside_retryRequest (o : Oracle) (key : Uid) (req : CommandReq) :
    Along Aside (retryRequest o key req) :=
  (aside_peerToEventMapAt _).bind fun _ ↦ along_getSelf.bind fun _ ↦ aside_macAndSendMsg rfl

/-- The commands of an abort, if any. -/
theorem abortCommand_spec (tagId eventId : Uid) (s : EnclaveState) :
    wp (abortCommand tagId eventId) (fun ms t ↦ Aside s t ∧ ∀ m ∈ ms, m.letter = none) s := by
  unfold abortCommand
  refine wp_bind_along (aside_leaderMapAt eventId) fun leader t ht ↦ ?_
  refine wp_bind_along (R := Aside) along_getSelf fun self u hu ↦ ?_
  rw [wp_ite]
  constructor
  · intro _
    exact wp_pure.mpr ⟨ht.trans hu, fun _ hm ↦ nomatch hm⟩
  · intro _
    refine wp_bind_along (aside_modifySelf (by simp [Peer.node])) fun _ v hv ↦ wp_pure.mpr ?_
    refine ⟨(ht.trans hu).trans hv, ?_⟩
    exact fun m hm ↦ List.mem_singleton.mp hm ▸ rfl

end TrustedDcr.Enclave
