import TrustedDcr.Enclave.Commits
import TrustedDcr.Enclave.Resolution
import TrustedDcr.System.Alone
import TrustedDcr.System.Growth

/-!
# The calls of a peer that leads alone

Every command a peer gets that is the only one of its cluster, and that it takes up,
ends with the entry committed and answered: a LOCK of another event is granted, one
of its own asks for the locks, and the last lock executes the event.
-/

namespace TrustedDcr.Enclave
open TrustedDcr.Msg TrustedDcr.Dcr TrustedDcr.Dcr.DcrWorkflow TrustedDcr.Theory

/-- The peer leads alone and has committed its whole log. -/
structure Peer.Sole (p : Peer) : Prop where
  leads : p.role = .leader
  settled : p.Settled

/-- The messages for an entry that is committed: the requests for a LOCK of the own event, the
answer to any other. -/
def Peer.announces (p : Peer) (o : Oracle) (e : Entry) : List Message :=
  (p.lockRequests o [e]).map .commandReq ++ (p.collected o 0 [e]).map .commandRsp

private theorem Peer.announces_of_commander {p q : Peer} {o : Oracle}
    (h : q.commander o = p.commander o) : q.announces o = p.announces o := by
  funext e
  unfold announces
  rw [lockRequests_of_commander h, collected_of_commander h]

section
variable {p : Peer} {o : Oracle} {e : Entry}

/-- A LOCK of the own event announces the requests for its locks. -/
theorem Peer.announces_of_own (own : e.event = p.clusterEvent) (type : e.tag.type = .lock) :
    p.announces o e = (p.lockCommands o e.tag.uid).map .commandReq := by
  simp [announces, lockRequests, collected, answers, ownLock, own, type]

/-- An entry that is answered announces its response. -/
theorem Peer.announces_of_answered (answered : p.answers e = true) (type : e.tag.type ≠ .abort) :
    p.announces o e = [.commandRsp (commitRsp p.id e)] := by
  have foreign : p.ownLock e = false := by
    unfold answers at answered
    simpa using (Bool.and_eq_true_iff.mp answered).2
  simp [announces, lockRequests, collected, answered, foreign, type]

/-- Where every committed LOCK is resolved, none is found that is not. -/
theorem Peer.hasUnresolvedLock_eq_none (commit : p.commitIndex < p.log.length)
    (resolved : ∀ i lock, p.log[i]? = some lock → lock.tag.type = .lock →
      p.CommittedAfter i fun e ↦ e.tag.type ≠ .lock ∧ e.event = lock.event) :
    p.hasUnresolvedLock = .ok none := by
  obtain ⟨found, hfound⟩ := exists_hasUnresolvedLock commit
  cases found with
  | none => exact hfound
  | some i =>
    exfalso
    have test := (firstIndex_eq_some hfound).2
    cases hlock : p.entryAt i with
    | error =>
      rw [hlock] at test
      exact nomatch test
    | ok lock =>
      have found := entryAt_ok hlock
      rw [hlock] at test
      change (if lock.tag.type = .lock then (do
        let resolved ← p.lockIsResolved i
        return !resolved) else return false : Except Fault Bool) = .ok true at test
      by_cases type : lock.tag.type = .lock
      · rw [if_pos type, (lockIsResolved_iff found type).mpr (resolved i lock found type)] at test
        exact nomatch test
      · rw [if_neg type] at test
        exact nomatch test

end

/-- The entries enter the log, all committed, with the events locked afterwards and the messages
sent. -/
structure Writes (entries : List Entry) (locked : UidSet) (ms : List Message) (s t : EnclaveState) :
    Prop where
  node : t.self.node = { s.self.node with
    log := s.self.log ++ entries
    commitIndex := s.self.commitIndex + entries.length }
  lockedEvents : t.self.lockedEvents = locked
  sent : t.sent = s.sent ++ ms

variable {o : Oracle} {s : EnclaveState}

/-- Nothing is written. -/
theorem Writes.of_node {locked : UidSet} {ms : List Message} {t : EnclaveState}
    (node : t.self.node = s.self.node) (lockedEvents : t.self.lockedEvents = locked)
    (sent : t.sent = s.sent ++ ms) : Writes [] locked ms s t := by
  refine ⟨?_, lockedEvents, sent⟩
  rw [node, List.append_nil]
  rfl

/-- What is appended is committed and announced. -/
theorem writes_appendToLog (sole : s.self.Sole) (e : Entry) :
    wp (appendToLog o e)
      (fun _ t ↦ Writes [e] s.self.lockedEvents (s.self.announces o e) s t) s := by
  obtain ⟨leads, alone, settled⟩ := sole
  unfold appendToLog
  refine wp_bind_modifySelf fun t ht ↦ ?_
  have log : t.self.log = s.self.log ++ [e] := by rw [ht]
  have role : t.self.role = .leader := by rw [ht]; exact leads
  have size : t.self.clusterSize = 1 := by rw [ht]; exact alone
  have index : t.self.log.length - 1 = s.self.commitIndex + 1 := by
    rw [log, List.length_append, List.length_singleton]
    omega
  have newly : t.self.newly (t.self.log.length - 1) = [e] := by
    unfold Peer.newly
    rw [index, log, show t.self.commitIndex = s.self.commitIndex by rw [ht], ← settled,
      List.take_of_length_le (by simp), List.drop_left]
  rw [wp_bind, wp_getSelf, if_pos size]
  refine wp_mono (wp_and (updateCommitIndex_spec o _ t) (updateCommitIndex_sent role)) ?_
  rintro _ u ⟨⟨v, executes, -, hu⟩, sent⟩
  rw [newly, index] at *
  constructor
  · rw [hu]
    change { v.self.node with commitIndex := s.self.commitIndex + 1 } = _
    rw [executes.node, ht]
    rfl
  · rw [hu]
    change v.self.lockedEvents = _
    rw [executes.lockedEvents, ht]
  · rw [sent, ht]
    rfl

/-! ### Requests -/

private theorem writes_appendCommand (sole : s.self.Sole) (req : CommandReq) (tag : CommandTag) :
    wp (appendCommand o req tag) (fun _ t ↦ Writes [s.self.commandEntry req tag] s.self.lockedEvents
      (s.self.announces o (s.self.commandEntry req tag)) s t) s := by
  unfold appendCommand
  rw [wp_bind, wp_getSelf]
  exact writes_appendToLog sole _

/-- A request that is in the log, so committed, is granted again. -/
theorem writes_recvCommandReq_of_logged (sole : s.self.Sole) {req : CommandReq}
    (target : req.target = s.self.id) {i : Nat} (logged : s.self.existInLog req.tag = some i)
    (committed : i ≤ s.self.commitIndex) :
    wp (recvCommandReq o true req) (fun _ t ↦ Writes [] s.self.lockedEvents
      [answerCommand s.self req req.tag true s.self.id] s t) s := by
  unfold recvCommandReq
  rw [wp_bind, wp_getSelf, if_neg (by simp), if_neg (by simp [target]), if_neg (by simp [sole.leads]),
    logged]
  dsimp only
  rw [if_pos committed, wp_macAndSendMsg]
  exact .of_node rfl rfl rfl

/-- A new request that is no LOCK is logged. -/
theorem writes_recvCommandReq_of_logs (sole : s.self.Sole) {req : CommandReq}
    (logs : s.self.logsCommand req = true) :
    let e := s.self.commandEntry req req.tag
    wp (recvCommandReq o true req)
      (fun _ t ↦ Writes [e] s.self.lockedEvents (s.self.announces o e) s t) s := by
  intro e
  unfold Peer.logsCommand at logs
  simp only [Bool.and_eq_true, uidsEqual_iff, Option.isNone_iff_eq_none, bne_iff_ne] at logs
  obtain ⟨⟨⟨target, -⟩, fresh⟩, type⟩ := logs
  unfold recvCommandReq
  rw [wp_bind, wp_getSelf, if_neg (by simp), if_neg (by simp [target]), if_neg (by simp [sole.leads]),
    fresh]
  dsimp only
  rw [if_neg type]
  exact writes_appendCommand sole req req.tag

/-- A LOCK that is admitted is logged, or executes when it locks nothing. -/
theorem writes_recvCommandReq_of_admits (sole : s.self.Sole) {req : CommandReq}
    (admits : s.self.admitsLock req = true) :
    let e := s.self.commandEntry req
      (if s.self.executesAtOnce req then ⟨req.tag.uid, .exec⟩ else req.tag)
    wp (recvCommandReq o true req)
      (fun _ t ↦ Writes [e] s.self.lockedEvents (s.self.announces o e) s t) s := by
  intro e
  unfold Peer.admitsLock at admits
  simp only [Bool.and_eq_true, uidsEqual_iff, Option.isNone_iff_eq_none, beq_iff_eq] at admits
  obtain ⟨⟨⟨⟨⟨target, -⟩, fresh⟩, type⟩, free⟩, enabled⟩ := admits
  unfold recvCommandReq
  rw [wp_bind, wp_getSelf, if_neg (by simp), if_neg (by simp [target]), if_neg (by simp [sole.leads]),
    fresh]
  dsimp only
  rw [if_pos type]
  unfold admitLock
  rw [wp_bind, wp_getSelf, wp_bind, wp_lift]
  intro found hfound
  rw [hfound] at free
  rw [if_neg (by simpa using free)]
  by_cases own : req.event = s.self.clusterEvent
  · rw [if_pos (by simpa using own)]
    have enabled : (s.self.workflow.isEventEnabled s.self.clusterEvent).1 = true := by
      simpa [own] using enabled
    have same := (sameReads_isEventEnabled s.self.workflow s.self.clusterEvent).graph
    generalize s.self.workflow.isEventEnabled s.self.clusterEvent = query at enabled same
    obtain ⟨_, workflow⟩ := query
    obtain rfl := enabled
    have lockSet : workflow.getLockSet req.event = s.self.workflow.getLockSet req.event := by
      rw [getLockSet_of_sameGraph same]
    refine wp_bind_modifySelf fun t ht ↦ ?_
    have append (tag : CommandTag) : wp (appendCommand o req tag) (fun _ u ↦
        Writes [s.self.commandEntry req tag] s.self.lockedEvents
          (s.self.announces o (s.self.commandEntry req tag)) s u) t := by
      have commander : t.self.commander o = s.self.commander o := by
        rw [ht]
        exact Peer.commander_of_sameGraph same
      have entry : t.self.commandEntry req tag = s.self.commandEntry req tag := by
        rw [ht]
        rfl
      have role : t.self.Sole := by
        rw [ht]
        exact ⟨sole.leads, sole.settled⟩
      refine wp_mono (writes_appendCommand role req tag) fun _ u written ↦ ?_
      rw [entry, Peer.announces_of_commander commander] at written
      rw [ht] at written
      exact ⟨written.node, written.lockedEvents, written.sent⟩
    rw [if_neg (by simp), lockSet]
    by_cases none : (s.self.workflow.getLockSet req.event).size = 0
    · have atOnce : s.self.executesAtOnce req = true := by
        simp only [Peer.executesAtOnce, own, uidsEqual_self, Bool.true_and, beq_iff_eq]
        rw [← own]
        exact none
      rw [if_pos none]
      simpa only [e, atOnce, if_true] using append ⟨req.tag.uid, .exec⟩
    · have atOnce : s.self.executesAtOnce req = false := by simp [Peer.executesAtOnce, none]
      rw [if_neg none]
      simpa only [e, atOnce, Bool.false_eq_true, if_false] using append req.tag
  · rw [if_neg (by simpa using own)]
    have atOnce : s.self.executesAtOnce req = false := by simp [Peer.executesAtOnce, own]
    simpa only [e, atOnce, Bool.false_eq_true, if_false] using writes_appendCommand sole req req.tag

/-- The request of a client goes to the leader that is named for its event. -/
theorem writes_execute {event leader : Uid} (named : s.self.leaderMap[event]? = some leader) :
    wp (execute o event) (fun _ t ↦ Writes [] s.self.lockedEvents
      [.commandReq ⟨leader, s.self.id, ⟨o.uid, .lock⟩, event⟩] s t) s := by
  have found : leaderMapAt event s = .ok (leader, s) := by
    unfold leaderMapAt
    rw [getSelf_bind, named]
    rfl
  unfold wp execute
  rw [bind_of_ok found]
  rintro _ _ ⟨⟩
  exact .of_node rfl rfl rfl

/-! ### Responses -/

/-- The peer with the response counted. -/
def Peer.withResponse (p : Peer) (rsp : CommandRsp) : Peer :=
  { p with
    missingResp := p.cleared rsp
    lockedEvents := p.lockedEvents.insert (p.eventOf rsp.source) }

/-- A response that counts is followed by the execution, if it is the last one. -/
theorem recvCommandRsp_of_counts {rsp : CommandRsp} (counts : s.self.countsLock rsp = true)
    (mapped : rsp.source ∈ s.self.peerToEventMap) : recvCommandRsp o true rsp s =
      (if (s.self.withResponse rsp).locksAquired then do
        sendExecution o rsp.tag.uid
        appendToLog o ((s.self.withResponse rsp).ownEntry ⟨rsp.tag.uid, .exec⟩)
        modifySelf fun p ↦ { p with lockedEvents := ∅ }
      else return : Ecall Unit) { s with self := s.self.withResponse rsp } := by
  obtain ⟨target, leads, granted, type, i, found, unresolved⟩ := Peer.countsLock_iff.mp counts
  rw [recvCommandRsp_of_handles ⟨rfl, target, leads, granted⟩, type]
  let u : EnclaveState := { s with self := { s.self with missingResp := s.self.cleared rsp } }
  have event : peerToEventMapAt rsp.source u = .ok (s.self.eventOf rsp.source, u) := by
    unfold peerToEventMapAt Peer.eventOf
    rw [getSelf_bind, Std.ExtTreeMap.getD_eq_getD_getElem?,
      Std.ExtTreeMap.getElem?_eq_some_getElem mapped]
    rfl
  have counted : recvLockRsp o rsp u = countLock o rsp u := by
    unfold recvLockRsp
    rw [getSelf_bind, show u.self.existInLog rsp.tag = some i from found]
    exact (bind_lift_of_ok (show u.self.lockIsResolved i = _ from unresolved)).trans rfl
  refine counted.trans ?_
  unfold countLock
  exact bind_of_ok event

/-- Before the last response, one more event is locked. -/
theorem writes_recvCommandRsp_of_open {rsp : CommandRsp} (counts : s.self.countsLock rsp = true)
    (mapped : rsp.source ∈ s.self.peerToEventMap)
    (missing : (s.self.withResponse rsp).locksAquired = false) :
    wp (recvCommandRsp o true rsp) (fun _ t ↦ Writes []
      (s.self.lockedEvents.insert (s.self.eventOf rsp.source)) [] s t) s := by
  unfold wp
  rw [recvCommandRsp_of_counts counts mapped, if_neg (by simp [missing])]
  rintro _ _ ⟨⟩
  exact .of_node rfl rfl (List.append_nil _).symm

/-- With the last response the inform set is told and the event executes. -/
theorem writes_recvCommandRsp_of_acquired (sole : s.self.Sole) {rsp : CommandRsp}
    (counts : s.self.countsLock rsp = true) (mapped : rsp.source ∈ s.self.peerToEventMap)
    (acquired : (s.self.withResponse rsp).locksAquired = true) :
    let e := s.self.ownEntry ⟨rsp.tag.uid, .exec⟩
    let told := (s.self.workflow.getInformSet s.self.clusterEvent).toList
    wp (recvCommandRsp o true rsp) (fun _ t ↦ Writes [e] ∅
      ((s.self.commandsTo o ⟨rsp.tag.uid, .exec⟩ told).map .commandReq ++ s.self.announces o e)
      s t) s := by
  intro e told
  unfold wp
  rw [recvCommandRsp_of_counts counts mapped, if_pos acquired]
  let u : EnclaveState := { s with self := s.self.withResponse rsp }
  suffices wp (do
      sendExecution o rsp.tag.uid
      appendToLog o e
      modifySelf fun p ↦ { p with lockedEvents := ∅ }) (fun _ t ↦ Writes [e] ∅
        ((s.self.commandsTo o ⟨rsp.tag.uid, .exec⟩ told).map .commandReq ++ s.self.announces o e)
        s t) u from this
  unfold sendExecution
  rw [wp_bind, wp_bind, wp_getSelf]
  refine wp_mono (filed_sendCommands _ _ u) ?_
  rintro _ v ⟨w, filed, hv⟩
  have commander : v.self.commander o = s.self.commander o := by
    rw [hv]
    exact (Peer.commander_of_filed filed :)
  have node : v.self.node = s.self.node := by
    obtain ⟨⟨leaders, rfl⟩, -⟩ := filed
    rw [hv]
    rfl
  have role : v.self.Sole :=
    ⟨(congrArg Node.role node).trans sole.leads, (congrArg Node.clusterSize node).trans sole.settled.1,
      by
        rw [show v.self.log = s.self.log from congrArg Node.log node,
          show v.self.commitIndex = s.self.commitIndex from congrArg Node.commitIndex node]
        exact sole.settled.2⟩
  rw [wp_bind]
  refine wp_mono (writes_appendToLog role e) fun _ t written ↦ ?_
  rw [wp_modifySelf]
  refine ⟨?_, rfl, ?_⟩
  · change t.self.node = _
    rw [written.node, node, show v.self.log = s.self.log from congrArg Node.log node,
      show v.self.commitIndex = s.self.commitIndex from congrArg Node.commitIndex node]
  · change t.sent = _
    rw [written.sent, Peer.announces_of_commander commander, hv, List.append_assoc]
    rfl

end TrustedDcr.Enclave
