import TrustedDcr.Enclave.Timers

/-!
# A follower in its term

Unless a letter of a later term reaches it, its deadline passes or a poll elects it, a
follower stays one, with its leader, and its timers change only when it hears from
that.
-/

namespace TrustedDcr.Enclave
open TrustedDcr.Msg TrustedDcr.Dcr TrustedDcr.Theory

variable {o : Oracle} {s : EnclaveState}

/-- What keeps a follower quiet. -/
def Peer.posture (p : Peer) : Role × Nat × Uid × Clock := (p.role, p.term, p.leader, p.clock)

/-- A follower that keeps its leader, and its timers or fresh ones. -/
structure Rests (p q : Peer) : Prop where
  role : q.role = p.role
  term : q.term = p.term
  leader : q.leader = p.leader
  timers : (q.tMin, q.t) = (p.tMin, p.t) ∨
    q.tMin = p.now + deltaMinTime ∧ ∃ r < deltaMaxTime, q.t = q.tMin + r

/-- A follower in the same posture rests. -/
theorem Rests.of_posture {p q : Peer} (h : q.posture = p.posture) : Rests p q := by
  simp only [Peer.posture, Peer.clock, Clock.mk.injEq, Prod.mk.injEq] at h
  obtain ⟨role, term, leader, -, tMin, deadline⟩ := h
  exact ⟨role, term, leader, Or.inl (Prod.ext tMin deadline)⟩

/-! ### Calls without a letter -/

private theorem posture_leaderMapAt (event : Uid) :
    Along (Same Peer.posture) (leaderMapAt event) := by
  intro s
  refine wp_mono (recalled_leaderMapAt event s) ?_
  rintro _ _ ⟨-, ⟨leaders, rfl⟩, -⟩
  rfl

/-- Starting an attempt leaves the posture as it was. -/
theorem posture_execute (event : Uid) : Along (Same Peer.posture) (execute o event) :=
  (posture_leaderMapAt event).bind fun _ ↦ along_getSelf.bind fun _ ↦
    (same_generateRandomUid _).bind fun _ ↦ same_macAndSendMsg _ _

/-- Asking for the history leaves the posture as it was. -/
theorem posture_getHistory : Along (Same Peer.posture) getHistory := by
  unfold getHistory
  refine along_getSelf.bind fun self ↦ Along.bind (Along.mapM fun event _ ↦ ?_)
    fun _ ↦ same_macAndBroadcastMsgs _ _
  exact (posture_leaderMapAt event).bind fun _ ↦ Along.pure _

/-- A follower only redirects a command request. -/
theorem posture_recvCommandReq {req : CommandReq} (follows : s.self.role = .follower) :
    wp (recvCommandReq o true req) (fun _ t ↦ Same Peer.posture s t) s := by
  unfold recvCommandReq
  rw [wp_bind, wp_getSelf, if_neg (by simp), wp_ite]
  refine ⟨fun _ ↦ wp_pure.mpr rfl, fun _ ↦ ?_⟩
  rw [if_pos (by simp [follows])]
  exact same_macAndSendMsg _ _ s

/-- A follower passes over a command response. -/
theorem posture_recvCommandRsp {rsp : CommandRsp} (follows : s.self.role = .follower) :
    wp (recvCommandRsp o true rsp) (fun _ t ↦ Same Peer.posture s t) s := by
  unfold recvCommandRsp
  rw [wp_bind, wp_getSelf, if_neg (by simp), wp_ite]
  refine ⟨fun _ ↦ wp_pure.mpr rfl, fun _ ↦ ?_⟩
  rw [if_pos (by simp [follows])]
  exact wp_pure.mpr rfl

/-- Answering for the history leaves the posture as it was. -/
theorem posture_recvLogReq (valid : Bool) (req : LogReq) :
    Along (Same Peer.posture) (recvLogReq valid req) := by
  unfold recvLogReq
  refine along_getSelf.bind fun self ↦ Along.ite (Along.pure _) (Along.ite (Along.pure _)
    (Along.ite ?_ (same_macAndSendMsg _ _)))
  exact (Along.mapM fun _ _ ↦ Along.lift _).bind fun _ ↦ same_macAndSendMsg _ _

/-- A history response leaves the posture as it was. -/
theorem posture_recvLogRsp (rsp : LogRsp) :
    Along (Same Peer.posture) (recvLogRsp true rsp) := by
  intro s
  unfold recvLogRsp
  rw [if_pos rfl]
  refine wp_bind_of_ok (peerToEventMapAt_eq rsp.source s) ?_
  rw [wp_ite]
  constructor
  · intro _
    rw [wp_bind, wp_modifySelf, wp_bind, wp_getSelf, wp_macAndSendMsg]
    rfl
  · intro _
    rw [wp_modify]
    rfl

/-- Before its deadline the clock passes by. -/
theorem rests_setTime {ticks : UInt64} (early : ticks ≤ s.self.t) :
    wp (setTime o ticks) (fun _ t ↦ Rests s.self t.self) s := by
  unfold setTime
  rw [wp_bind, wp_getSelf]
  refine wp_bind_modifySelf fun t ht ↦ ?_
  rw [wp_bind, wp_getSelf, if_neg (by simp [ht, early]), wp_pure, ht]
  exact ⟨rfl, rfl, rfl, Or.inl rfl⟩

/-! ### Letters -/

/-- What follows a verified letter that is of no later term. -/
theorem wp_current {target source : Uid} {term : Nat} {body : Ecall Unit}
    {Q : Unit → EnclaveState → Prop} (current : target = s.self.id → term ≤ s.self.term)
    (dropped : Q ⟨⟩ s) (hbody : target = s.self.id → wp body Q s) :
    wp (do
      let verified ← verifyMacAndOwnTerm true target source term
      if verified then body) Q s := by
  apply wp_verified
  · exact fun _ ↦ dropped
  · exact fun addressed later ↦ absurd (current addressed) (Nat.not_le.mpr later)
  · exact fun addressed _ ↦ hbody addressed

private theorem posture_updateCommitIndex {index : Nat} (follows : s.self.role = .follower) :
    wp (updateCommitIndex o index) (fun _ t ↦ Same Peer.posture s t) s := by
  unfold updateCommitIndex
  rw [wp_bind, wp_getSelf, wp_bind, wp_lift]
  intro committed _
  rw [if_pos (by simp [follows]), wp_bind, wp_modifySelf, wp_modifySelf]
  rfl

private theorem posture_acceptEntries {req : AppendReq} (follows : s.self.role = .follower) :
    wp (acceptEntries o req) (fun _ t ↦ Same Peer.posture s t) s := by
  unfold acceptEntries
  refine wp_bind_modifySelf fun t ht ↦ wp_bind_modifySelf fun u hu ↦ ?_
  have same : Same Peer.posture s u := by
    rw [hu, ht]
    rfl
  rw [wp_bind, wp_getSelf]
  refine wp_when (Same Peer.posture s) (fun _ ↦ ?_) (fun _ ↦ same) fun v hv ↦ ?_
  · have role : u.self.role = .follower := (congrArg Prod.fst same).trans follows
    exact wp_mono (posture_updateCommitIndex role) fun _ _ h ↦ IsTrans.trans _ _ _ same h
  · exact wp_macAndSendMsg.mpr hv

/-- A request of the leader renews the timers, any other leaves them. -/
theorem rests_recvAppendReq {req : AppendReq} (follows : s.self.role = .follower)
    (current : req.target = s.self.id → req.term ≤ s.self.term) :
    wp (recvAppendReq o true req) (fun _ t ↦ Rests s.self t.self) s := by
  unfold recvAppendReq
  refine wp_current current (.of_posture rfl) fun _ ↦ ?_
  rw [wp_bind, wp_getSelf]
  refine wp_bind_along (same_verifyMsgTerm Peer.posture _ _) fun verified t ht ↦ ?_
  have stop : Rests s.self t.self := .of_posture ht
  rw [wp_ite]
  refine ⟨fun _ ↦ ?_, fun _ ↦ wp_pure.mpr stop⟩
  rw [if_pos follows]
  have role : t.self.role = .follower := stop.role.trans follows
  have now : t.self.now = s.self.now := congrArg (fun x ↦ x.2.2.2.now) ht
  refine wp_when (fun u ↦ Rests s.self u.self) (fun _ ↦ ?_) (fun _ ↦ stop) fun u hu ↦ ?_
  · refine wp_modifySelf.mpr ?_
    rw [if_neg (by simp [role])]
    have draw : o.timeout.toUInt64 % deltaMaxTime < deltaMaxTime := UInt64.mod_lt _ (by decide)
    refine ⟨stop.role, stop.term, stop.leader, Or.inr ⟨?_, _, draw, rfl⟩⟩
    rw [now]
  · have rest {v : EnclaveState} (same : Same Peer.posture u v) : Rests s.self v.self := by
      simp only [Same, Peer.posture, Peer.clock, Clock.mk.injEq, Prod.mk.injEq] at same
      obtain ⟨hrole, hterm, hleader, -, htMin, hdeadline⟩ := same
      refine ⟨hrole.trans hu.role, hterm.trans hu.term, hleader.trans hu.leader, ?_⟩
      rw [htMin, hdeadline]
      exact hu.timers
    rw [wp_ite]
    refine ⟨fun _ ↦ wp_macAndSendMsg.mpr (rest rfl), fun _ ↦ ?_⟩
    exact wp_mono (posture_acceptEntries (hu.role.trans follows)) fun _ _ ↦ rest

/-- A follower passes over an append response of no later term. -/
theorem posture_recvAppendRsp {rsp : AppendRsp} (follows : s.self.role = .follower)
    (current : rsp.target = s.self.id → rsp.term ≤ s.self.term) :
    wp (recvAppendRsp o true rsp) (fun _ t ↦ Same Peer.posture s t) s := by
  unfold recvAppendRsp
  refine wp_current current rfl fun _ ↦ ?_
  rw [wp_bind, wp_getSelf, if_neg (by simp [follows])]
  exact wp_pure.mpr rfl

/-- A poll of no later term leaves the posture as it was. -/
theorem posture_recvPollReq {req : PollReq}
    (current : req.target = s.self.id → req.term ≤ s.self.term) :
    wp (recvPollReq true req) (fun _ t ↦ Same Peer.posture s t) s := by
  unfold recvPollReq
  refine wp_current current rfl fun _ ↦ ?_
  have body : Along (Same Peer.posture) (do
      let self ← getSelf
      let _ ← verifyMsgTerm req.term <| .pollRsp
        { target := req.source, source := self.id, term := self.term, success := false }
      if self.role = .follower then
        let last ← self.lastEntry
        macAndSendMsg <| .pollRsp
          { target := req.source, source := self.id, term := self.term,
            success := logNotAhead last req.lastTerm req.lastIndex && minTimeExceeded self }) :=
    along_getSelf.bind fun _ ↦ (same_verifyMsgTerm _ _ _).bind fun _ ↦
      Along.ite ((Along.lift _).bind fun _ ↦ same_macAndSendMsg _ _) (Along.pure _)
  exact body s

/-- A refused poll leaves a follower that has no majority where it is. -/
theorem posture_recvPollRsp {rsp : PollRsp} (follows : s.self.role = .follower)
    (current : rsp.target = s.self.id → rsp.term ≤ s.self.term)
    (refused : rsp.target = s.self.id → rsp.success = false)
    (few : s.self.pollVotes ≤ s.self.clusterSize / 2) :
    wp (recvPollRsp o true rsp) (fun _ t ↦ Same Peer.posture s t) s := by
  unfold recvPollRsp
  refine wp_current current rfl fun addressed ↦ ?_
  intro a t returns
  change countPoll o rsp.success s = .ok (a, t) at returns
  rw [countPoll_of_follower follows, refused addressed, Bool.toNat_false, Nat.add_zero,
    if_neg (Nat.not_lt.mpr few)] at returns
  obtain ⟨⟩ := returns
  rfl

/-- A request for votes in no later term leaves the posture as it was. -/
theorem posture_recvElectionReq {req : ElectionReq}
    (current : req.target = s.self.id → req.term ≤ s.self.term) :
    wp (recvElectionReq true req) (fun _ t ↦ Same Peer.posture s t) s := by
  unfold recvElectionReq
  refine wp_current current rfl fun _ ↦ ?_
  rw [wp_bind, wp_getSelf]
  refine wp_bind_along (same_verifyMsgTerm Peer.posture _ _) fun verified t ht ↦ ?_
  refine wp_mono (Q := fun _ u ↦ Same Peer.posture t u) ?_ fun _ _ h ↦ IsTrans.trans _ _ _ ht h
  refine Along.ite (Along.ite ((Along.lift _).bind fun _ ↦ Along.when ?_ (same_macAndSendMsg _ _))
    (Along.pure _)) (Along.pure _) t
  exact same_modifySelf _ fun _ ↦ rfl

/-- A follower passes over a vote in no later term. -/
theorem posture_recvElectionRsp {rsp : ElectionRsp} (follows : s.self.role = .follower)
    (current : rsp.target = s.self.id → rsp.term ≤ s.self.term) :
    wp (recvElectionRsp o true rsp) (fun _ t ↦ Same Peer.posture s t) s := by
  unfold recvElectionRsp
  refine wp_current current rfl fun _ ↦ ?_
  rw [wp_bind, wp_getSelf, if_neg (by simp [follows])]
  exact wp_pure.mpr rfl

end TrustedDcr.Enclave
