import TrustedDcr.System.Routing

/-!
# Requests reach a peer of their event

Every call keeps the calling peer routed, provided that the message it receives is
right about the clusters; and no call sends one that is not, but for the response that
no case has assigned.
-/

namespace TrustedDcr.System
open TrustedDcr.Msg TrustedDcr.Dcr TrustedDcr.Dcr.DcrWorkflow TrustedDcr.Enclave TrustedDcr.Theory

section
variable {cfg : Config} {w : World} {a : Action}

/-! ### Commands -/

private theorem steers_answerCommand {q : Peer} (hq : Routed cfg a.peer q) (req : CommandReq)
    (tag : CommandTag) {success : Bool} {leader : Uid} (known : success = true ∨
      leader = emptyUid ∨ leader ∈ cfg.cluster (cfg.clusterOf a.peer)) :
    Steady cfg w a (macAndSendMsg (answerCommand q req tag success leader)) :=
  steers_macAndSendMsg (.other rfl) (hq.honest_answer _ rfl known)

/-- A redirect names another peer of the same cluster. -/
theorem steers_recvRedirect {rsp : CommandRsp} {e : Uid} (source : rsp.source ∈ cfg.cluster e)
    (leader : rsp.leader ∈ cfg.cluster e) : Steady cfg w a (recvRedirect rsp) := by
  refine (steers_peerToEventMapAt source).bind fun event hevent ↦ ?_
  refine steers_bind_modifySelf (fun _ hq ↦ hq.insertLeader (hevent ▸ leader)) (fun _ ↦ rfl) ?_
  intro s hs
  rw [wp_bind, wp_getSelf]
  cases hreq : s.self.missingResp[rsp.source]? with
  | none => exact wp_pure.mpr ⟨⟨_, Sends.refl hs⟩, trivial⟩
  | some req =>
    have filed : ∀ r, { s.self with missingResp :=
        (s.self.missingResp.erase rsp.source).insert rsp.leader req }.Awaits r →
        s.self.Awaits r := by
      rintro r ⟨k, hk⟩
      dsimp only at hk
      rw [Std.ExtTreeMap.getElem?_insert] at hk
      split at hk
      · exact Option.some.inj hk ▸ ⟨_, hreq⟩
      · rw [Std.ExtTreeMap.getElem?_erase] at hk
        split at hk
        · exact nomatch hk
        · exact ⟨k, hk⟩
    refine wp_modifySelf.mpr ⟨⟨_, Sends.none (hs.withMissing fun r hr ↦ ?_) rfl filed⟩, trivial⟩
    exact Or.inl (filed r hr)

/-- Forgetting a request. -/
theorem steers_erase (key : Uid) :
    Steady cfg w a (modifySelf fun p ↦ { p with missingResp := p.missingResp.erase key }) := by
  intro s hs
  have filed : ∀ r, { s.self with missingResp := s.self.missingResp.erase key }.Awaits r →
      s.self.Awaits r := by
    rintro r ⟨k, hk⟩
    dsimp only at hk
    rw [Std.ExtTreeMap.getElem?_erase] at hk
    split at hk
    · exact nomatch hk
    · exact ⟨k, hk⟩
  refine wp_modifySelf.mpr ⟨⟨_, Sends.none (hs.withMissing fun r hr ↦ ?_) rfl filed⟩, trivial⟩
  exact Or.inl (filed r hr)

private theorem steers_clearMissingResp (rsp : CommandRsp) :
    Steady cfg w a (clearMissingResp rsp) := by
  refine steers_getSelf.bind fun q _ ↦ ?_
  cases q.missingResp[rsp.source]? with
  | none => exact Steers.pure trivial
  | some req => exact Steers.ite (fun _ ↦ steers_erase _) fun _ ↦ Steers.pure trivial

/-- The request with the unset entry goes to the peer that responded. -/
theorem steers_answerResolved {rsp : CommandRsp} {e : Uid} (source : rsp.source ∈ cfg.cluster e)
    (called : a.call = .recv (.commandRsp rsp)) (lockIndex : Nat) :
    Steady cfg w a (answerResolved a.oracle rsp lockIndex) := by
  refine steers_getSelf.bind fun q hq ↦ Steers.lift.bind fun committed _ ↦
    Steers.ite (fun _ ↦ ?_) fun _ ↦ Steers.pure trivial
  rw [hq.id]
  intro s hs
  have drafts := Drafts.file hs ⟨rsp.source, a.peer, a.oracle.junkResolve.tag,
    a.oracle.junkResolve.event⟩ source rsp.source
  refine wp_bind_modifySelf fun t ht ↦ ?_
  rw [ht]
  refine drafts.broadcast (Block.resolve called).emits fun m hm ↦ ?_
  exact ⟨_, List.mem_singleton.mp hm⟩

section
variable (covered : cfg.Covered)
include covered

private theorem steers_appendCommand (req : CommandReq) (tag : CommandTag) :
    Steady cfg w a (appendCommand a.oracle req tag) :=
  steers_getSelf.bind fun _ _ ↦ steers_appendToLog covered _

private theorem steers_admitLock (req : CommandReq) : Steady cfg w a (admitLock a.oracle req) := by
  unfold admitLock
  refine steers_getSelf.bind fun q hq ↦ Steers.lift.bind fun found _ ↦ Steers.ite
    (fun _ ↦ steers_answerCommand hq req _ (Or.inr (Or.inl rfl))) fun _ ↦
    Steers.ite (fun _ ↦ ?_) fun _ ↦ steers_appendCommand covered _ _
  have hgraph := hq.workflow.trans (sameReads_isEventEnabled q.workflow q.clusterEvent).graph
  generalize q.workflow.isEventEnabled q.clusterEvent = query at hgraph
  obtain ⟨enabled, workflow⟩ := query
  refine steers_bind_modifySelf (fun _ hq ↦ { hq with workflow := hgraph }) (fun _ ↦ rfl) ?_
  exact Steers.ite (fun _ ↦ steers_answerCommand hq req _ (Or.inr (Or.inl rfl))) fun _ ↦
    Steers.ite (fun _ ↦ steers_appendCommand covered _ _) fun _ ↦ steers_appendCommand covered _ _

private theorem steers_recvCommandReq (valid : Bool) (req : CommandReq) :
    Steady cfg w a (recvCommandReq a.oracle valid req) := by
  unfold recvCommandReq
  refine steers_getSelf.bind fun q hq ↦ Steers.ite (fun _ ↦ Steers.pure trivial) fun _ ↦
    Steers.ite (fun _ ↦ Steers.pure trivial) fun _ ↦ Steers.ite
      (fun _ ↦ steers_answerCommand hq req _ (Or.inr (Or.inr hq.leader))) fun _ ↦ ?_
  cases q.existInLog req.tag with
  | some index =>
    exact Steers.ite (fun _ ↦ steers_answerCommand hq req _ (Or.inl rfl)) fun _ ↦
      Steers.pure trivial
  | none =>
    exact Steers.ite (fun _ ↦ steers_admitLock covered req) fun _ ↦ steers_appendCommand covered _ _

private theorem steers_recvAbortRsp (rsp : CommandRsp) :
    Steady cfg w a (recvAbortRsp a.oracle rsp) :=
  (steers_leaderMapAt _).bind fun _ _ ↦ steers_getSelf.bind fun _ _ ↦ Steers.lift.bind fun _ _ ↦
    Steers.ite (fun _ ↦ Steers.pure trivial) fun _ ↦ Steers.lift.bind fun _ _ ↦
      Steers.ite (fun _ ↦ steers_abortExecution covered _) fun _ ↦
        Steers.ite (fun _ ↦ steers_appendToLog covered _) fun _ ↦ Steers.pure trivial

private theorem steers_countLock {rsp : CommandRsp} {e : Uid}
    (source : rsp.source ∈ cfg.cluster e) : Steady cfg w a (countLock a.oracle rsp) := by
  refine (steers_peerToEventMapAt source).bind fun event _ ↦ ?_
  refine steers_bind_modifySelf (fun _ hq ↦ { hq with }) (fun _ ↦ rfl) ?_
  refine steers_getSelf.bind fun q _ ↦ Steers.ite (fun _ ↦ ?_) fun _ ↦ Steers.pure trivial
  exact (steers_sendExecution covered _).bind fun _ _ ↦ (steers_appendToLog covered _).bind
    fun _ _ ↦ steers_modifySelf (fun _ hq ↦ { hq with }) fun _ ↦ rfl

private theorem steers_recvLockRsp {rsp : CommandRsp} {e : Uid}
    (source : rsp.source ∈ cfg.cluster e)
    (called : a.call = .recv (.commandRsp rsp)) : Steady cfg w a (recvLockRsp a.oracle rsp) := by
  refine steers_getSelf.bind fun q _ ↦ ?_
  cases q.existInLog rsp.tag with
  | none => exact Steers.pure trivial
  | some lockIndex =>
    exact Steers.lift.bind fun resolved _ ↦ Steers.ite
      (fun _ ↦ steers_answerResolved source called lockIndex)
      fun _ ↦ steers_countLock covered source

private theorem steers_recvCommandRsp (valid : Bool) {rsp : CommandRsp}
    (honest : Honest cfg (.commandRsp rsp)) (called : a.call = .recv (.commandRsp rsp)) :
    Steady cfg w a (recvCommandRsp a.oracle valid rsp) := by
  obtain ⟨e, source, leader⟩ := honest.commandRsp rsp rfl
  unfold recvCommandRsp
  refine steers_getSelf.bind fun q _ ↦ Steers.ite (fun _ ↦ Steers.pure trivial) fun _ ↦
    Steers.ite (fun _ ↦ Steers.pure trivial) fun _ ↦ Steers.ite (fun _ ↦ Steers.pure trivial)
      fun _ ↦ Steers.ite (fun redirects ↦ ?_) fun _ ↦
        (steers_clearMissingResp rsp).bind fun _ _ ↦ ?_
  · simp only [Bool.and_eq_true, Bool.not_eq_true', Bool.eq_false_iff, ne_eq, uidsEqual_iff]
      at redirects
    exact steers_recvRedirect source (leader (by simp [redirects.1]) redirects.2)
  · cases rsp.tag.type with
    | abort => exact steers_recvAbortRsp covered rsp
    | exec => exact steers_erase _
    | lock => exact steers_recvLockRsp covered source called
    | checkpoint => exact Steers.pure trivial

/-! ### Replication and elections -/

private theorem steers_acceptEntries {req : AppendReq}
    (source : req.source ∈ cfg.cluster (cfg.clusterOf a.peer)) :
    Steady cfg w a (acceptEntries a.oracle req) := by
  refine steers_bind_modifySelf (fun _ hq ↦ { hq with }) (fun _ ↦ rfl) ?_
  refine steers_bind_modifySelf (fun _ hq ↦ { hq with }) (fun _ ↦ rfl) ?_
  exact steers_getSelf.bind fun q hq ↦ Steers.when (fun _ ↦ steers_updateCommitIndex covered _)
    (steers_sendLetter hq rfl rfl source)

private theorem steers_recvAppendReq (valid : Bool) {req : AppendReq}
    (honest : Honest cfg (.appendReq req)) : Steady cfg w a (recvAppendReq a.oracle valid req) := by
  refine (steers_verifyMacAndOwnTerm valid honest (l := ⟨req.source, req.target, req.term⟩)
    rfl).bind fun verified source ↦ Steers.ite (fun ver ↦ ?_) fun _ ↦ Steers.pure trivial
  refine steers_getSelf.bind fun q hq ↦ (steers_verifyMsgTerm hq _ rfl rfl (source ver)).bind
    fun _ _ ↦ Steers.ite (fun _ ↦ Steers.ite (fun _ ↦ ?_) fun _ ↦ Steers.pure trivial)
      fun _ ↦ Steers.pure trivial
  exact Steers.when (fun _ ↦ steers_updateTimeout) (Steers.ite
    (fun _ ↦ steers_sendLetter hq rfl rfl (source ver))
    fun _ ↦ steers_acceptEntries covered (source ver))

private theorem steers_recvAppendRsp (valid : Bool) {rsp : AppendRsp}
    (honest : Honest cfg (.appendRsp rsp)) : Steady cfg w a (recvAppendRsp a.oracle valid rsp) := by
  refine (steers_verifyMacAndOwnTerm valid honest (l := ⟨rsp.source, rsp.target, rsp.term⟩)
    rfl).bind fun verified source ↦ Steers.ite (fun ver ↦ ?_) fun _ ↦ Steers.pure trivial
  refine steers_getSelf.bind fun q hq ↦ Steers.ite (fun _ ↦ Steers.ite (fun _ ↦ ?_) fun _ ↦ ?_)
    fun _ ↦ Steers.pure trivial
  · refine steers_bind_modifySelf (fun _ hq ↦ { hq with }) (fun _ ↦ rfl) ?_
    exact steers_getSelf.bind fun _ _ ↦ Steers.lift.bind fun _ _ ↦ Steers.lift.bind fun _ _ ↦
      Steers.ite (fun _ ↦ steers_updateCommitIndex covered _) fun _ ↦ Steers.pure trivial
  · exact Steers.lift.bind fun _ _ ↦ steers_sendLetter hq rfl rfl (source ver)

end

private theorem steers_recvPollReq (valid : Bool) {req : PollReq}
    (honest : Honest cfg (.pollReq req)) : Steady cfg w a (recvPollReq valid req) := by
  refine (steers_verifyMacAndOwnTerm valid honest (l := ⟨req.source, req.target, req.term⟩)
    rfl).bind fun verified source ↦ Steers.ite (fun ver ↦ ?_) fun _ ↦ Steers.pure trivial
  exact steers_getSelf.bind fun q hq ↦ (steers_verifyMsgTerm hq _ rfl rfl (source ver)).bind
    fun _ _ ↦ Steers.ite (fun _ ↦ Steers.lift.bind fun _ _ ↦
      steers_sendLetter hq rfl rfl (source ver)) fun _ ↦ Steers.pure trivial

private theorem steers_recvPollRsp (valid : Bool) {rsp : PollRsp}
    (honest : Honest cfg (.pollRsp rsp)) : Steady cfg w a (recvPollRsp a.oracle valid rsp) := by
  refine (steers_verifyMacAndOwnTerm valid honest (l := ⟨rsp.source, rsp.target, rsp.term⟩)
    rfl).bind fun verified _ ↦ Steers.ite (fun _ ↦ ?_) fun _ ↦ Steers.pure trivial
  refine steers_getSelf.bind fun q hq ↦ Steers.ite (fun _ ↦ Steers.when (fun _ ↦ ?_) ?_)
    fun _ ↦ Steers.pure trivial
  · exact steers_modifySelf (fun _ hq ↦ { hq with }) fun _ ↦ rfl
  · exact steers_getSelf.bind fun _ _ ↦ Steers.ite (fun _ ↦ steers_startElection) fun _ ↦
      Steers.pure trivial

private theorem steers_recvElectionReq (valid : Bool) {req : ElectionReq}
    (honest : Honest cfg (.electionReq req)) : Steady cfg w a (recvElectionReq valid req) := by
  refine (steers_verifyMacAndOwnTerm valid honest (l := ⟨req.source, req.target, req.term⟩)
    rfl).bind fun verified source ↦ Steers.ite (fun ver ↦ ?_) fun _ ↦ Steers.pure trivial
  refine steers_getSelf.bind fun q hq ↦ (steers_verifyMsgTerm hq _ rfl rfl (source ver)).bind
    fun _ _ ↦ Steers.ite (fun _ ↦ Steers.ite (fun _ ↦ Steers.lift.bind fun _ _ ↦
      Steers.when (fun _ ↦ ?_) (steers_sendLetter hq rfl rfl (source ver)))
      fun _ ↦ Steers.pure trivial) fun _ ↦ Steers.pure trivial
  exact steers_modifySelf (fun _ hq ↦ { hq with }) fun _ ↦ rfl

private theorem steers_recvElectionRsp (valid : Bool) {rsp : ElectionRsp}
    (honest : Honest cfg (.electionRsp rsp)) :
    Steady cfg w a (recvElectionRsp a.oracle valid rsp) := by
  refine (steers_verifyMacAndOwnTerm valid honest (l := ⟨rsp.source, rsp.target, rsp.term⟩)
    rfl).bind fun verified _ ↦ Steers.ite (fun _ ↦ ?_) fun _ ↦ Steers.pure trivial
  refine steers_getSelf.bind fun q hq ↦ Steers.ite (fun _ ↦ Steers.ite (fun _ ↦ ?_)
    fun _ ↦ Steers.pure trivial) fun _ ↦ Steers.pure trivial
  refine steers_bind_modifySelf (fun _ hq ↦ { hq with }) (fun _ ↦ rfl) ?_
  exact steers_getSelf.bind fun _ _ ↦ Steers.ite (fun _ ↦ steers_heartbeat.bind fun _ _ ↦
    steers_becomeLeader) fun _ ↦ Steers.pure trivial

/-! ### Executions and histories -/

/-- The request of a client goes wherever the map points. -/
theorem steers_execute {event : Uid} (called : a.call = .execute event) :
    Steady cfg w a (execute a.oracle event) := by
  refine (steers_leaderMapAt event).bind fun l _ ↦ steers_getSelf.bind fun q hq ↦
    steers_generateRandomUid.bind fun uid huid ↦ ?_
  rw [huid, hq.id]
  exact steers_macAndSendMsg (Block.start called) (honest_commandReq _)

private theorem steers_getHistory : Steady cfg w a getHistory := by
  refine steers_getSelf.bind fun q _ ↦ ?_
  refine (Steers.mapM (Q := fun m ↦ ∃ req, m = .logReq req) fun event _ ↦ ?_).bind fun ms hms ↦ ?_
  · exact (steers_leaderMapAt event).bind fun l _ ↦ Steers.pure ⟨_, rfl⟩
  · refine steers_macAndBroadcastMsgs (Emits.of_plain fun m hm ↦ ?_) fun m hm ↦ ?_
    · obtain ⟨req, rfl⟩ := hms m hm
      rfl
    · obtain ⟨req, rfl⟩ := hms m hm
      exact Or.inl (honest_logReq req)

private theorem steers_recvLogReq (valid : Bool) (req : LogReq) :
    Steady cfg w a (recvLogReq valid req) := by
  refine steers_getSelf.bind fun q hq ↦ Steers.ite (fun _ ↦ Steers.pure trivial) fun _ ↦
    Steers.ite (fun _ ↦ Steers.pure trivial) fun _ ↦ Steers.ite (fun _ ↦ ?_) fun _ ↦ ?_
  · refine (Steers.mapM (Q := fun _ ↦ True) fun i _ ↦ ?_).bind fun entries _ ↦ ?_
    · exact fun s hs ↦ wp_mono (Steers.lift s hs) fun _ _ h ↦ ⟨h.1, trivial⟩
    · exact steers_macAndSendMsg (.other rfl) (hq.honest_history _ rfl (Or.inl rfl))
  · exact steers_macAndSendMsg (.other rfl) (hq.honest_history _ rfl (Or.inr hq.leader))

private theorem steers_recvLogRsp (valid : Bool) {rsp : LogRsp}
    (honest : Honest cfg (.logRsp rsp)) : Steady cfg w a (recvLogRsp valid rsp) := by
  obtain ⟨e, source, leader⟩ := honest.logRsp rsp rfl
  refine Steers.ite (fun _ ↦ ?_) fun _ ↦ Steers.pure trivial
  refine (steers_peerToEventMapAt source).bind fun event hevent ↦ Steers.ite (fun refused ↦ ?_)
    fun _ ↦ ?_
  · have hl : rsp.leader ∈ cfg.cluster event := hevent ▸ leader (by simpa using refused)
    refine steers_bind_modifySelf (fun _ hq ↦ hq.insertLeader hl) (fun _ ↦ rfl) ?_
    exact steers_getSelf.bind fun _ _ ↦ steers_macAndSendMsg (.other rfl) (honest_logReq _)
  · exact fun _ hs ↦ wp_modify.mpr ⟨⟨_, Sends.none hs rfl fun _ hr ↦ hr⟩, trivial⟩

/-! ### Every call -/

/-- Heartbeats change nothing of the peer. -/
theorem heartbeat_self (s : EnclaveState) : wp heartbeat (fun _ t ↦ t.self = s.self) s := by
  unfold heartbeat
  rw [wp_bind, wp_getSelf, wp_ite, wp_bind, wp_lift]
  exact ⟨fun _ _ _ ↦ wp_macAndBroadcastMsgs.mpr rfl, fun _ ↦ wp_pure.mpr rfl⟩

/-- A leader retries before anything else is filed in the call. -/
theorem steers_timeout (covered : cfg.Covered) {s : EnclaveState} (hs : Routed cfg a.peer s.self)
    (before : s.self.missingResp = (w.peers a.peer).missingResp) :
    wp (timeout a.oracle) (fun _ t ↦ (∃ ms, Sends cfg w a s t ms) ∧ True) s := by
  have rest : Steady cfg w a (do
      if (← getSelf).role = .candidate then startElection a.oracle
      if (← getSelf).role = .follower then
        updateTimeout a.oracle
        startPoll) := by
    refine steers_getSelf.bind fun _ _ ↦ Steers.when (fun _ ↦ steers_startElection) ?_
    exact steers_getSelf.bind fun _ _ ↦ Steers.ite (fun _ ↦ steers_updateTimeout.bind fun _ _ ↦
      steers_startPoll) fun _ ↦ Steers.pure trivial
  unfold timeout leaderTimeout
  rw [wp_bind, wp_getSelf, wp_ite, wp_bind]
  refine ⟨fun _ ↦ ?_, fun _ ↦ rest s hs⟩
  rw [wp_bind]
  refine wp_mono (wp_and (steers_heartbeat (w := w) s hs) (heartbeat_self s)) ?_
  rintro _ t ⟨⟨⟨ms, hst⟩, -⟩, self⟩
  rw [wp_bind]
  refine wp_mono (steers_retryRequests covered hst.routed (self ▸ before)) ?_
  rintro _ u ⟨⟨ns, htu⟩, -⟩
  refine wp_mono ((hst.trans htu).steers steers_updateTimeout) ?_
  rintro _ v ⟨⟨os, hsv⟩, -⟩
  exact hsv.steers rest

private theorem steers_setTime (covered : cfg.Covered) (ticks : UInt64) {s : EnclaveState}
    (hs : Routed cfg a.peer s.self) (before : s.self.missingResp = (w.peers a.peer).missingResp) :
    wp (setTime a.oracle ticks) (fun _ t ↦ (∃ ms, Sends cfg w a s t ms) ∧ True) s := by
  unfold setTime
  rw [wp_bind, wp_getSelf]
  refine wp_bind_modifySelf fun t ht ↦ ?_
  have hst : Sends cfg w a s t [] := by
    rw [ht]
    exact Sends.none { hs with } rfl fun _ hr ↦ hr
  rw [wp_bind, wp_getSelf, wp_ite]
  refine ⟨fun _ ↦ ?_, fun _ ↦ wp_pure.mpr ⟨⟨_, hst⟩, trivial⟩⟩
  refine wp_mono (steers_timeout covered hst.routed (by rw [ht]; exact before)) ?_
  rintro _ u ⟨⟨ms, htu⟩, -⟩
  exact ⟨⟨_, hst.trans htu⟩, trivial⟩

/-- Every call by a routed peer, if it receives a message that is right about the clusters. -/
theorem sends_body (covered : cfg.Covered) (routed : Routed cfg a.peer (w.peers a.peer))
    (honest : ∀ m, a.call = .recv m → Honest cfg m) :
    wp (a.call.body a.oracle) (fun _ e ↦ ∃ ms, Sends cfg w a (w.enclave a.peer) e ms)
      (w.enclave a.peer) := by
  have steady {x : Ecall Unit} (hx : Steady cfg w a x) :
      wp x (fun _ e ↦ ∃ ms, Sends cfg w a (w.enclave a.peer) e ms) (w.enclave a.peer) :=
    wp_mono (hx _ routed) fun _ _ h ↦ h.1
  cases hcall : a.call with
  | setTime ticks =>
    exact wp_mono (steers_setTime covered ticks routed rfl) fun _ _ h ↦ h.1
  | execute event => exact steady (steers_execute hcall)
  | getHistory => exact steady steers_getHistory
  | recv msg =>
    have hm := honest msg hcall
    cases msg with
    | commandReq req => exact steady (steers_recvCommandReq covered true req)
    | commandRsp rsp => exact steady (steers_recvCommandRsp covered true hm hcall)
    | appendReq req => exact steady (steers_recvAppendReq covered true hm)
    | appendRsp rsp => exact steady (steers_recvAppendRsp covered true hm)
    | pollReq req => exact steady (steers_recvPollReq true hm)
    | pollRsp rsp => exact steady (steers_recvPollRsp true hm)
    | electionReq req => exact steady (steers_recvElectionReq true hm)
    | electionRsp rsp => exact steady (steers_recvElectionRsp true hm)
    | logReq req => exact steady (steers_recvLogReq true req)
    | logRsp rsp => exact steady (steers_recvLogRsp true hm)

end

/-! ### Runs -/

/-- The first leaders are peers of their events, and no event with a peer is without one. -/
theorem pickLeaders_spec (m : UidMap Uid) :
    (∀ e l : Uid, (pickLeaders m)[e]? = some l → m[l]? = some e) ∧
      ∀ x e : Uid, m[x]? = some e → e ∈ pickLeaders m := by
  have pick (rs : List (Uid × Uid)) (hrs : ∀ r ∈ rs, m[r.1]? = some r.2) (acc : UidMap Uid)
      (hacc : ∀ e l : Uid, acc[e]? = some l → m[l]? = some e) :
      let leaders := rs.foldl (fun leaderMap r ↦
        if r.2 ∈ leaderMap then leaderMap else leaderMap.insert r.2 r.1) acc
      (∀ e l : Uid, leaders[e]? = some l → m[l]? = some e) ∧
        ∀ e, e ∈ acc ∨ (∃ r ∈ rs, r.2 = e) → e ∈ leaders := by
    induction rs generalizing acc with
    | nil => exact ⟨hacc, by simp⟩
    | cons r rs ih =>
      obtain ⟨hr, hrs⟩ := List.forall_mem_cons.mp hrs
      rw [List.foldl_cons]
      by_cases known : r.2 ∈ acc
      · rw [if_pos known]
        obtain ⟨valid, present⟩ := ih hrs acc hacc
        refine ⟨valid, fun e he ↦ present e ?_⟩
        obtain he | ⟨r', hr', rfl⟩ := he
        · exact Or.inl he
        · obtain rfl | hr' := List.mem_cons.mp hr'
          · exact Or.inl known
          · exact Or.inr ⟨r', hr', rfl⟩
      · rw [if_neg known]
        obtain ⟨valid, present⟩ := ih hrs (acc.insert r.2 r.1) fun e l hl ↦ by
          rw [Std.ExtTreeMap.getElem?_insert] at hl
          split at hl
          · next he =>
            rw [← Std.LawfulEqCmp.compare_eq_iff_eq.mp he, ← Option.some.inj hl]
            exact hr
          · exact hacc e l hl
        refine ⟨valid, fun e he ↦ present e ?_⟩
        rw [mem_insert_uid]
        obtain he | ⟨r', hr', rfl⟩ := he
        · exact Or.inl (Or.inr he)
        · obtain rfl | hr' := List.mem_cons.mp hr'
          · exact Or.inl (Or.inl rfl)
          · exact Or.inr ⟨r', hr', rfl⟩
  obtain ⟨valid, present⟩ := pick m.toList
    (fun r hr ↦ Std.ExtTreeMap.mem_toList_iff_getElem?_eq_some.mp hr) ∅ (by simp)
  refine ⟨valid, fun x e hx ↦ present e (Or.inr ⟨(x, e), ?_, rfl⟩)⟩
  exact Std.ExtTreeMap.mem_toList_iff_getElem?_eq_some.mpr hx

section
variable {cfg : Config} {h : Hist} {s t : World} {a : Action} {p : Uid}

/-- A new leader files no request. -/
theorem becomeLeader_missingResp (o : Oracle) (s : EnclaveState) :
    wp (becomeLeader o) (fun _ t ↦ t.self.missingResp = s.self.missingResp) s := by
  have lead {u : EnclaveState} (hu : u.self.missingResp = s.self.missingResp) : wp (do
      modifySelf fun p ↦
        { p with role := .leader, leaderMap := p.leaderMap.insert p.clusterEvent p.id }
      updateTimeout o) (fun _ t ↦ t.self.missingResp = s.self.missingResp) u := by
    refine wp_bind_modifySelf fun v hv ↦ wp_modifySelf.mpr ?_
    rw [hv]
    exact hu
  refine wp_bind_modifySelf fun t ht ↦ ?_
  rw [wp_bind, wp_getSelf, wp_bind, wp_lift]
  intro found _
  cases found with
  | none => exact wp_bind_modifySelf fun u hu ↦ lead (by rw [hu, ht])
  | some index => exact wp_bind_modifySelf fun u hu ↦ lead (by rw [hu, ht])

/-- A peer starts out routed, with no request to retry. -/
theorem routed_configured (hp : p ∈ cfg.peerToEventMap) :
    Routed cfg p (configured cfg p) ∧ (configured cfg p).missingResp = ∅ := by
  have own := Config.mem_cluster_clusterOf hp
  have call : wp (configureEnclave silent p cfg.workflow cfg.peerMap)
      (fun _ e ↦ Routed cfg p e.self ∧ e.self.missingResp = ∅) ⟨Peer.zero, [], [], []⟩ := by
    obtain ⟨valid, present⟩ := pickLeaders_spec cfg.peerToEventMap
    have leaders : ∀ e, ∀ x ∈ cfg.cluster e, ∃ l ∈ cfg.cluster e,
        (pickLeaders cfg.peerToEventMap)[e]? = some l := by
      intro e x hx
      have he := present x e (Config.mem_cluster.mp hx)
      obtain ⟨l, hl⟩ := Std.ExtTreeMap.mem_iff_isSome_getElem?.mp he |> Option.isSome_iff_exists.mp
      exact ⟨l, Config.mem_cluster.mpr (valid e l hl), hl⟩
    obtain ⟨l, hl, first⟩ := leaders _ p own
    refine wp_bind_modifySelf fun u hu ↦ ?_
    have event : u.self.clusterEvent = cfg.clusterOf p := by
      rw [hu]
      rfl
    have map : u.self.leaderMap = pickLeaders cfg.peerToEventMap := by
      rw [hu]
      rfl
    have missing : u.self.missingResp = ∅ := by
      rw [hu]
      rfl
    have base : Routed cfg p { u.self with leader := l } := by
      refine ⟨?_, own, event, ?_, ?_, ?_, map ▸ leaders, hl, ?_⟩
      · rw [hu]
      · rw [hu]
        exact fun x hx ↦ List.mem_toFinset.mpr hx
      · rw [hu]
        exact SameGraph.refl _
      · rw [hu]
        rfl
      · rintro req ⟨k, hk⟩
        dsimp only at hk
        rw [missing] at hk
        simp at hk
    rw [wp_bind, wp_getSelf]
    unfold leaderMapAt
    rw [wp_bind, wp_bind, wp_getSelf, map, event, first, wp_pure]
    refine wp_bind_modifySelf fun v hv ↦ ?_
    have hrouted : Routed cfg p v.self := by
      rw [hv]
      exact base.updateTerm hl 0
    have hmissing : v.self.missingResp = ∅ := by
      rw [hv]
      exact missing
    rw [wp_ite]
    refine ⟨fun _ ↦ ?_, fun _ ↦ wp_pure.mpr ⟨hrouted, hmissing⟩⟩
    refine wp_mono (wp_and (steers_becomeLeader (w := World.initial cfg)
      (a := ⟨p, .getHistory, silent⟩) v hrouted) (becomeLeader_missingResp silent v)) ?_
    rintro _ e ⟨⟨⟨ms, sends⟩, -⟩, he⟩
    exact ⟨sends.routed, he.trans hmissing⟩
  obtain ⟨_, e, hrun, -⟩ := runs_configureEnclave cfg p
  unfold configured
  rw [hrun]
  exact call _ e hrun

/-- No message sent in the step is the response that no case has assigned. -/
def SendsInitialised (cfg : Config) (s : World) (a : Action) : Prop :=
  ∀ t, s.step cfg a = some t → ∀ round, .commandRsp (a.oracle.junkRsp round) ∉
    t.net.drop s.net.length

/-- The same of the contents that a scheduled action finds there. -/
def SendsNoSilent (cfg : Config) (s : World) (a : Action) : Prop :=
  ∀ t ∈ s.step cfg a, .commandRsp (silent.junkRsp 0) ∉ t.net.drop s.net.length

instance (cfg : Config) (s : World) (a : Action) : Decidable (SendsNoSilent cfg s a) :=
  inferInstanceAs (Decidable (∀ t ∈ s.step cfg a, _))

private theorem SendsInitialised.of_cue {cue : Cue} (hcue : cue.action s = some a)
    (h : SendsNoSilent cfg s a) : SendsInitialised cfg s a := by
  intro t next round
  have silence : a.oracle.junkRsp = silent.junkRsp := by
    cases cue with
    | tick => exact Option.some.inj hcue ▸ rfl
    | deliver peer message =>
      obtain ⟨m, -, rfl⟩ := Option.map_eq_some_iff.mp hcue
      rfl
    | start => exact Option.some.inj hcue ▸ rfl
  rw [silence]
  exact h t next

/-- All peers are routed, all messages are right about the clusters, and what a peer awaits a
response to was sent. -/
structure Steered (cfg : Config) (s : World) : Prop where
  routed : ∀ p ∈ cfg.peerToEventMap, Routed cfg p (s.peers p)
  honest : ∀ m ∈ s.net, Honest cfg m
  filed : ∀ p ∈ cfg.peerToEventMap, ∀ req, (s.peers p).Awaits req → .commandReq req ∈ s.net

/-- A step hands over blocks of messages, and all that it does keeps to the clusters. -/
theorem Steered.call (steered : Steered cfg s) (covered : cfg.Covered)
    (next : s.step cfg a = some t) : a.peer ∈ cfg.peerToEventMap ∧ ∃ e ms,
      Sends cfg s a (s.enclave a.peer) e ms ∧ t.peers = Function.update s.peers a.peer e.self ∧
      t.net = s.net ++ ms := by
  obtain ⟨allowed, -⟩ := World.step_cases next
  have call := sends_body covered (steered.routed _ allowed.1) fun m hm ↦
    steered.honest m (allowed.received m (by rw [hm]; rfl))
  obtain ⟨-, e, ⟨ms, sends⟩, hpeers, hnet, -⟩ := World.step_of_wp next call
  refine ⟨allowed.1, e, ms, sends, hpeers, ?_⟩
  rw [hnet, sends.sent]
  rfl

/-- What is right about the clusters stays so in a step that sends nothing unassigned. -/
theorem Steered.step (steered : Steered cfg s) (covered : cfg.Covered)
    (initialised : SendsInitialised cfg s a) (next : s.step cfg a = some t) : Steered cfg t := by
  obtain ⟨-, e, ms, sends, hpeers, hnet⟩ := steered.call covered next
  constructor
  · intro p hp
    rw [hpeers]
    by_cases hself : p = a.peer
    · subst hself
      rw [Function.update_self]
      exact sends.routed
    · rw [Function.update_of_ne hself]
      exact steered.routed p hp
  · intro m hm
    rw [hnet, List.mem_append] at hm
    obtain hm | hm := hm
    · exact steered.honest m hm
    · obtain honest | ⟨round, rfl⟩ := sends.genuine m hm
      · exact honest
      · refine absurd ?_ (initialised t next round)
        rwa [hnet, List.drop_left]
  · intro p hp req awaits
    rw [hnet, List.mem_append]
    rw [hpeers] at awaits
    by_cases hself : p = a.peer
    · subst hself
      rw [Function.update_self] at awaits
      exact (sends.filed req awaits).imp_left (steered.filed _ hp req)
    · rw [Function.update_of_ne hself] at awaits
      exact Or.inl (steered.filed p hp req awaits)

/-- So over a run. -/
theorem Run.steered (run : Run cfg (fun _ s a ↦ SendsInitialised cfg s a) h s)
    (covered : cfg.Covered) : Steered cfg s := by
  induction run with
  | initial =>
    refine ⟨fun p hp ↦ (routed_configured hp).1, (fun _ hm ↦ nomatch hm), ?_⟩
    rintro p hp req ⟨k, hk⟩
    rw [show ((World.initial cfg).peers p).missingResp = ∅ from (routed_configured hp).2] at hk
    simp at hk
  | step _ meets next ih => exact ih.step covered meets next

end

/-- As long as no unset response is sent: `leader_map` has a peer of every event of the workflow,
`leader` is a member of the own cluster, every request in `missing_resp` was sent before, and the
next call, whatever it is, sends blocks of messages, in which the LOCK and EXEC requests for an
event and their retries are addressed to peers of the event.
`src/enclave/enclave.cpp:202–306,585–597`, `src/enclave/raft.cpp:32–39,158–186`. -/
theorem requests_reach_their_event {cfg : Config} (covered : cfg.Covered) {h : Hist} {s : World}
    (run : Run cfg (fun _ s a ↦ SendsInitialised cfg s a) h s) {p : Uid}
    (hp : p ∈ cfg.peerToEventMap) :
    (∀ e ∈ cfg.workflow.events, ∃ l ∈ cfg.cluster e, (s.peers p).leaderMap[e]? = some l) ∧
      (s.peers p).leader ∈ cfg.cluster (cfg.clusterOf p) ∧
      (∀ req, (s.peers p).Awaits req → .commandReq req ∈ s.net) ∧
      ∀ a t, a.peer = p → s.step cfg a = some t → ∃ ms, t.net = s.net ++ ms ∧ Emits cfg s a ms := by
  have steered := run.steered covered
  have routed := steered.routed p hp
  refine ⟨fun e he ↦ ?_, routed.leader, steered.filed p hp, fun a t _ next ↦ ?_⟩
  · obtain ⟨x, hx⟩ := covered.exists_mem he
    exact routed.leaderMap e x hx
  · obtain ⟨-, e, ms, sends, -, hnet⟩ := steered.call covered next
    exact ⟨ms, hnet, sends.emits⟩

/-- An event with one peer, to which another event with two peers responds. -/
def relay : Config where
  workflow := { unrelated [⟨0, 1⟩, ⟨0, 2⟩] with
    dcrResponsesOut := [⟨0, 2⟩], dcrResponsesIn := [⟨0, 1⟩] }
  peerMap := [(⟨0, 11⟩, ⟨0, 1⟩), (⟨0, 12⟩, ⟨0, 1⟩), (⟨0, 21⟩, ⟨0, 2⟩)]

/-- A follower redirects the LOCK request to itself, and the second retry goes to the other peer of
the event. -/
theorem relay_requests_reach_their_event : ∃ h s a t,
    Run relay (fun _ s a ↦ SendsInitialised relay s a) h s ∧ s.step relay a = some t ∧
      (∃ l ∈ relay.cluster ⟨0, 1⟩, (s.peers ⟨0, 21⟩).leaderMap[(⟨0, 1⟩ : Uid)]? = some l) ∧
      t.net = s.net ++ [.commandReq ⟨⟨0, 12⟩, ⟨0, 21⟩, ⟨⟨0, 101⟩, .lock⟩, ⟨0, 2⟩⟩] ∧
      Emits relay s a [.commandReq ⟨⟨0, 12⟩, ⟨0, 21⟩, ⟨⟨0, 101⟩, .lock⟩, ⟨0, 2⟩⟩] := by
  obtain ⟨r, hr, a, -, hpeer, t, next, hsent⟩ : ∃ r ∈ replay relay
      (fun _ s a ↦ SendsNoSilent relay s a) [] (World.initial relay)
      [.start ⟨0, 21⟩ ⟨0, 2⟩ ⟨0, 101⟩, .deliver ⟨0, 21⟩ 0, .deliver ⟨0, 11⟩ 1, .deliver ⟨0, 21⟩ 2,
        .tick ⟨0, 21⟩ 1 emptyUid, .tick ⟨0, 21⟩ 10000 emptyUid],
      ∃ a ∈ Cue.action r.2 (.tick ⟨0, 21⟩ 20000 emptyUid), a.peer = ⟨0, 21⟩ ∧
        ∃ t ∈ r.2.step relay a, t.net.drop r.2.net.length =
          [.commandReq ⟨⟨0, 12⟩, ⟨0, 21⟩, ⟨⟨0, 101⟩, .lock⟩, ⟨0, 2⟩⟩] := by
    decide +kernel
  have run : Run relay (fun _ s a ↦ SendsInitialised relay s a) r.1 r.2 :=
    run_of_replay_of_cues (fun hcue h ↦ .of_cue hcue h) .initial hr
  obtain ⟨leaders, -, -, emits⟩ := requests_reach_their_event (by decide +kernel) run
    (p := ⟨0, 21⟩) (by decide +kernel)
  obtain ⟨ms, hnet, hms⟩ := emits a t hpeer next
  rw [hnet, List.drop_left] at hsent
  rw [hsent] at hnet hms
  exact ⟨r.1, r.2, a, t, run, next, leaders _ (by decide), hnet, hms⟩

end TrustedDcr.System
