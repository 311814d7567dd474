import TrustedDcr.Enclave.Replication

/-!
# Commands as moves

Every call about commands and histories is a sequence of moves. What it appends
is named by its `Origin`.
-/

namespace TrustedDcr.Enclave
open TrustedDcr.Msg TrustedDcr.Dcr TrustedDcr.Dcr.DcrWorkflow TrustedDcr.Theory

variable {o : Oracle}

/-! ### Requests -/

/-- Lock sets depend on the relations only. -/
theorem getLockSet_of_sameGraph {w v : DcrWorkflow} (h : SameGraph w v) :
    v.getLockSet = w.getLockSet := by
  funext e
  rw [h]
  rfl

/-- A command that is no duplicate is appended as it was received or as an execution. -/
theorem goes_appendCommand {s : EnclaveState} {p : Peer} {req : CommandReq} {tag : CommandTag}
    (leads : s.self.role = .leader) (log : s.self.log = p.log) (term : s.self.term = p.term)
    (origin : Origin (some (.commandReq req)) o p s.drawn
      ⟨p.log.length, p.term, req.event, req.source, tag⟩) :
    wp (appendCommand o req tag) (fun _ t ↦ Goes (some (.commandReq req)) o p s t) s := by
  unfold appendCommand
  rw [wp_bind, wp_getSelf]
  rw [← log, ← term] at origin
  exact wp_mono (goes_appendToLog leads log term origin) fun _ _ h ↦ h.1

/-- The admission of a LOCK request. -/
theorem goes_admitLock {s : EnclaveState} {req : CommandReq} (target : req.target = s.self.id)
    (leads : s.self.role = .leader) (fresh : s.self.existInLog req.tag = none)
    (lock : req.tag.type = .lock) :
    wp (admitLock o req) (fun _ t ↦ Goes (some (.commandReq req)) o s.self s t) s := by
  have refuse {t : EnclaveState} (tag : CommandTag) (leader : Uid) :
      Goes (some (.commandReq req)) o s.self t
        { t with sent := t.sent ++ [answerCommand s.self req tag false leader] } :=
    Goes.say_one (Says.of_letter rfl)
  unfold admitLock
  rw [wp_bind, wp_getSelf, wp_bind, wp_lift]
  intro found hfound
  rw [wp_ite]
  refine ⟨fun _ ↦ wp_macAndSendMsg.mpr (refuse _ _), fun hnone ↦ ?_⟩
  have hfound : s.self.hasUnresolvedLock = .ok none := by
    cases found with
    | none => exact hfound
    | some i => exact absurd rfl hnone
  have admits (henabled : uidsEqual req.event s.self.clusterEvent = false ∨
      (s.self.workflow.isEventEnabled s.self.clusterEvent).1 = true) :
      s.self.admitsLock req = true := by
    unfold Peer.admitsLock
    rw [hfound, fresh]
    rcases henabled with h | h <;> simp [target, leads, lock, h]
  rw [wp_ite]
  constructor
  · intro hown
    have hreads := sameReads_isEventEnabled s.self.workflow s.self.clusterEvent
    generalize s.self.workflow.isEventEnabled s.self.clusterEvent = query at hreads admits ⊢
    obtain ⟨enabled, workflow⟩ := query
    dsimp only at hreads admits ⊢
    refine wp_bind_modifySelf fun t ht ↦ ?_
    have hst : Aside s t := by
      rw [ht]
      exact Executes.of_self rfl rfl rfl hreads id
    clear ht
    have hlog : t.self.log = s.self.log := congrArg Node.log hst.node
    have hterm : t.self.term = s.self.term := congrArg Node.term hst.node
    have hrole : t.self.role = .leader := (congrArg Node.role hst.node).trans leads
    rw [wp_ite]
    refine ⟨fun _ ↦ wp_macAndSendMsg.mpr (hst.goes.trans (refuse _ _)), fun henabled ↦ ?_⟩
    have hadmits := admits (Or.inr (by simpa using henabled))
    rw [getLockSet_of_sameGraph hreads.graph, wp_ite]
    constructor
    · intro hfree
      have honce : s.self.executesAtOnce req = true := by
        simp only [Peer.executesAtOnce, hown, hfree, beq_self_eq_true, Bool.and_self]
      exact wp_mono (goes_appendCommand hrole hlog hterm (.immediate rfl hadmits honce))
        fun _ _ h ↦ hst.goes.trans h
    · intro hlocks
      have honce : s.self.executesAtOnce req = false := by
        simp only [Peer.executesAtOnce, hown, Bool.true_and, beq_eq_false_iff_ne]
        exact hlocks
      exact wp_mono (goes_appendCommand hrole hlog hterm
        (.request rfl target leads fresh fun _ ↦ ⟨hadmits, honce⟩)) fun _ _ h ↦ hst.goes.trans h
  · intro hother
    have hother : uidsEqual req.event s.self.clusterEvent = false :=
      Bool.eq_false_iff.mpr hother
    have honce : s.self.executesAtOnce req = false := by simp [Peer.executesAtOnce, hother]
    exact goes_appendCommand leads rfl rfl
      (.request rfl target leads fresh fun _ ↦ ⟨admits (Or.inl hother), honce⟩)

/-- `recv_command_req` is a sequence of moves. -/
theorem goes_recvCommandReq (valid : Bool) (req : CommandReq) (s : EnclaveState) :
    wp (recvCommandReq o valid req) (fun _ t ↦ Goes (some (.commandReq req)) o s.self s t) s := by
  have answer (tag : CommandTag) (success : Bool) (leader : Uid) :
      Goes (some (.commandReq req)) o s.self s
        { s with sent := s.sent ++ [answerCommand s.self req tag success leader] } :=
    Goes.say_one (Says.of_letter rfl)
  unfold recvCommandReq
  rw [wp_bind, wp_getSelf, wp_ite]
  refine ⟨fun _ ↦ wp_pure.mpr (Goes.refl s), fun _ ↦ ?_⟩
  rw [wp_ite]
  refine ⟨fun _ ↦ wp_pure.mpr (Goes.refl s), fun htarget ↦ ?_⟩
  rw [wp_ite]
  refine ⟨fun _ ↦ wp_macAndSendMsg.mpr (answer _ _ _), fun hleads ↦ ?_⟩
  have hleads : s.self.role = .leader := by simpa using hleads
  cases hdup : s.self.existInLog req.tag with
  | some index =>
    dsimp only
    rw [wp_ite]
    exact ⟨fun _ ↦ wp_macAndSendMsg.mpr (answer _ _ _), fun _ ↦ wp_pure.mpr (Goes.refl s)⟩
  | none =>
    dsimp only
    rw [wp_ite]
    refine ⟨fun hlock ↦ goes_admitLock (by simpa using htarget) hleads hdup hlock, fun hlock ↦ ?_⟩
    exact goes_appendCommand hleads rfl rfl
      (.request rfl (by simpa using htarget) hleads hdup fun h ↦ absurd h hlock)

/-! ### Responses -/

/-- A redirected request stays outside the replicated log. -/
theorem aside_recvRedirect (rsp : CommandRsp) : Along Aside (recvRedirect rsp) := by
  unfold recvRedirect
  refine (aside_peerToEventMapAt _).bind fun event ↦
    (aside_modifySelf (by simp [Peer.node])).bind fun _ ↦
    along_getSelf.bind fun self ↦ ?_
  split
  · exact aside_modifySelf (by simp [Peer.node])
  · exact Along.pure _

/-- Clearing a missing response changes nothing else of the peer. -/
theorem clearMissingResp_spec (rsp : CommandRsp) (s : EnclaveState) :
    wp (clearMissingResp rsp)
      (fun _ t ↦ ∃ missing, t = { s with self := { s.self with missingResp := missing } }) s := by
  unfold clearMissingResp
  rw [wp_bind, wp_getSelf]
  cases s.self.missingResp[rsp.source]? with
  | none => exact wp_pure.mpr ⟨_, rfl⟩
  | some req =>
    dsimp only
    rw [wp_ite]
    exact ⟨fun _ ↦ wp_modifySelf.mpr ⟨_, rfl⟩, fun _ ↦ wp_pure.mpr ⟨_, rfl⟩⟩

/-- An abort releases the locks, and then appends its entry and sends its commands. -/
theorem goes_abortExecution {s : EnclaveState} {p : Peer} {rsp : CommandRsp}
    (type : rsp.tag.type = .abort) (node : s.self.node = p.node)
    (clusterEvent : s.self.clusterEvent = p.clusterEvent) (leads : s.self.role = .leader) :
    wp (abortExecution o o.junkEntry.tag.uid)
      (fun _ t ↦ Goes (some (.commandRsp rsp)) o p s t) s := by
  unfold abortExecution
  refine wp_bind_modifySelf fun t ht ↦ ?_
  have hst : Goes (some (.commandRsp rsp)) o p s t := by
    rw [ht]
    refine ⟨.refl, rfl, SameGraph.refl _, id, fun x hx ↦ ?_⟩
    exact absurd hx Std.ExtTreeSet.not_mem_empty
  have hn : t.self.node = p.node := by
    rw [ht]
    exact node
  have hc : t.self.clusterEvent = p.clusterEvent := by
    rw [ht]
    exact clusterEvent
  have hrole : t.self.role = .leader := by
    rw [ht]
    exact leads
  clear ht
  have hlog : t.self.log = p.log := congrArg Node.log hn
  have hterm : t.self.term = p.term := congrArg Node.term hn
  rw [wp_bind, wp_getSelf, wp_bind, hlog, hterm, hc,
    show t.self.id = p.id from congrArg Node.id hn]
  refine wp_mono (goes_appendToLog hrole hlog hterm (.aborted rfl type)) fun _ u ⟨htu, _⟩ ↦ ?_
  rw [wp_bind, wp_getSelf, wp_bind]
  refine wp_mono (wp_mapM (R := Aside) (P := fun ms ↦ ∀ m ∈ ms, m.letter = none)
    (fun e _ v ↦ abortCommand_spec _ e v) u) fun reqs v ⟨huv, hreqs⟩ ↦ ?_
  refine wp_mono (aside_macAndBroadcastMsgs (fun m hm ↦ ?_) v) fun _ w hw ↦
    hst.trans (htu.trans (huv.goes.trans hw.goes))
  obtain ⟨ms, hms, hm⟩ := List.mem_flatten.mp hm
  exact hreqs ms hms m hm

/-- The ABORT case is a sequence of moves; its last branch is never taken, because the entry at
position -1 is read before. -/
theorem goes_recvAbortRsp {s : EnclaveState} {p : Peer} {rsp : CommandRsp}
    (type : rsp.tag.type = .abort) (node : s.self.node = p.node)
    (clusterEvent : s.self.clusterEvent = p.clusterEvent) (leads : s.self.role = .leader) :
    wp (recvAbortRsp o rsp) (fun _ t ↦ Goes (some (.commandRsp rsp)) o p s t) s := by
  unfold recvAbortRsp
  refine wp_bind_along (aside_leaderMapAt _) fun event t ht ↦ ?_
  rw [wp_bind, wp_getSelf, wp_bind, wp_lift]
  intro locked hlocked
  rw [wp_ite]
  refine ⟨fun _ ↦ wp_pure.mpr ht.goes, fun _ ↦ ?_⟩
  rw [wp_bind, wp_lift]
  intro own _
  rw [wp_ite]
  constructor
  · intro _
    exact wp_mono (goes_abortExecution type (ht.node.trans node)
      (ht.clusterEvent.trans clusterEvent) ((congrArg Node.role ht.node).trans leads))
      fun _ _ h ↦ ht.goes.trans h
  · intro _
    rw [wp_ite]
    refine ⟨fun hnone ↦ ?_, fun _ ↦ wp_pure.mpr ht.goes⟩
    have := (entryAtInt_ok hlocked).1
    omega

/-- A late response is answered outside the replicated log. -/
theorem aside_answerResolved (rsp : CommandRsp) (lockIndex : Nat) :
    Along Aside (answerResolved o rsp lockIndex) := by
  unfold answerResolved
  refine along_getSelf.bind fun self ↦ (Along.lift _).bind fun committed ↦
    Along.ite ((aside_modifySelf (by simp [Peer.node])).bind fun _ ↦ aside_macAndSendMsg rfl)
      (Along.pure _)

/-- A counted response enters its event, and with the last lock the execution is appended. -/
theorem goes_countLock {s : EnclaveState} {p : Peer} {rsp : CommandRsp}
    (counts : p.countsLock rsp = true) (leads : s.self.role = .leader)
    (hs : ∃ missing, s.self = { p with missingResp := missing }) :
    wp (countLock o rsp) (fun _ t ↦ Goes (some (.commandRsp rsp)) o p s t ∧
      t.self.peerToEventMap[rsp.source]? = some (p.eventOf rsp.source)) s := by
  obtain ⟨missing, hs⟩ := hs
  unfold countLock
  rw [wp_bind]
  refine wp_mono (peerToEventMapAt_spec rsp.source s) fun event t ⟨hst, hevent, hmapped⟩ ↦ ?_
  have hevent : event = p.eventOf rsp.source := by
    rw [hevent, hs]
    rfl
  refine wp_bind_modifySelf fun u hu ↦ ?_
  have htu : Goes (some (.commandRsp rsp)) o p t u := by
    rw [hu]
    refine ⟨.refl, rfl, SameGraph.refl _, id, fun x hx ↦ ?_⟩
    rcases (mem_set_insert_uid _ _ _).mp hx with rfl | hx
    · exact Or.inr ⟨rsp, rfl, counts, hevent, hmapped⟩
    · exact Or.inl hx
  have hn : u.self.node = p.node := by
    rw [hu]
    exact hst.node.trans (by rw [hs]; rfl)
  have hc : u.self.clusterEvent = p.clusterEvent := by
    rw [hu]
    exact hst.clusterEvent.trans (by rw [hs])
  have hlocks : u.self.locksAquired =
      { p with lockedEvents := p.lockedEvents.insert (p.eventOf rsp.source) }.locksAquired := by
    rw [hu]
    unfold Peer.locksAquired
    dsimp only
    rw [getLockSet_of_sameGraph hst.reads.graph, hst.clusterEvent, hst.lockedEvents, hevent, hs]
  have hrole : u.self.role = .leader := by
    rw [hu]
    exact (congrArg Node.role hst.node).trans leads
  have hmap : u.self.peerToEventMap[rsp.source]? = some (p.eventOf rsp.source) := by
    rw [hu, ← hevent]
    exact hmapped
  clear hu
  have hlog : u.self.log = p.log := congrArg Node.log hn
  have hterm : u.self.term = p.term := congrArg Node.term hn
  rw [wp_bind, wp_getSelf, wp_ite]
  refine ⟨fun hall ↦ ?_, fun _ ↦ wp_pure.mpr ⟨hst.goes.trans htu, hmap⟩⟩
  rw [hlog, hterm, hc, show u.self.id = p.id from congrArg Node.id hn]
  have hcomplete : p.completesLocks rsp = true := by
    unfold Peer.completesLocks
    rw [counts, ← hlocks, hall]
    rfl
  refine wp_bind_along (aside_sendExecution o _) fun _ v hv ↦ ?_
  rw [wp_bind]
  refine wp_mono (goes_appendToLog ((congrArg Node.role hv.node).trans hrole)
    ((congrArg Node.log hv.node).trans hlog) ((congrArg Node.term hv.node).trans hterm)
    (.executed rfl hcomplete)) fun _ w ⟨hvw, _⟩ ↦ ?_
  rw [wp_modifySelf]
  refine ⟨hst.goes.trans (htu.trans (hv.goes.trans (hvw.trans ?_))), ?_⟩
  · exact ⟨.refl, rfl, SameGraph.refl _, id, fun x hx ↦ absurd hx Std.ExtTreeSet.not_mem_empty⟩
  · exact hvw.locked.mapped (hv.mapped hmap)

/-- The LOCK case is a sequence of moves, and a counted response comes from a mapped peer. -/
theorem goes_recvLockRsp {s : EnclaveState} {p : Peer} {rsp : CommandRsp}
    (target : rsp.target = p.id) (leads : p.role = .leader)
    (noRedirect : (!rsp.success && !uidsEqual rsp.leader emptyUid) = false)
    (type : rsp.tag.type = .lock) (hs : ∃ missing, s.self = { p with missingResp := missing }) :
    wp (recvLockRsp o rsp) (fun _ t ↦ Goes (some (.commandRsp rsp)) o p s t ∧
      (p.countsLock rsp = true →
        t.self.peerToEventMap[rsp.source]? = some (p.eventOf rsp.source))) s := by
  unfold recvLockRsp
  rw [wp_bind, wp_getSelf]
  have hs' := hs
  obtain ⟨missing, hself⟩ := hs'
  have hfound : s.self.existInLog rsp.tag = p.existInLog rsp.tag := by rw [hself]; rfl
  have hresolved (i : Nat) : s.self.lockIsResolved i = p.lockIsResolved i := by rw [hself]; rfl
  rw [hfound]
  cases hindex : p.existInLog rsp.tag with
  | none =>
    refine wp_pure.mpr ⟨Goes.refl s, fun counts ↦ ?_⟩
    obtain ⟨-, -, -, -, i, hi, -⟩ := Peer.countsLock_iff.mp counts
    exact nomatch hindex.symm.trans hi
  | some lockIndex =>
    dsimp only
    rw [wp_bind, wp_lift]
    intro resolved hres
    rw [hresolved] at hres
    rw [wp_ite]
    refine ⟨fun h ↦ ?_, fun h ↦ ?_⟩
    · refine wp_mono (aside_answerResolved rsp lockIndex s) fun _ _ ht ↦ ⟨ht.goes, fun counts ↦ ?_⟩
      obtain ⟨-, -, -, -, i, hi, hf⟩ := Peer.countsLock_iff.mp counts
      obtain rfl := Option.some.inj (hindex.symm.trans hi)
      rw [hres, h] at hf
      exact nomatch hf
    · have hgranted : rsp.success = true ∨ rsp.leader = emptyUid := by
        cases hsuccess : rsp.success <;> simp_all
      have counts : p.countsLock rsp = true := by
        refine Peer.countsLock_iff.mpr ⟨target, leads, hgranted, type, lockIndex, hindex, ?_⟩
        rw [hres, Bool.eq_false_iff.mpr h]
      refine wp_mono (goes_countLock counts (by rw [hself]; exact leads) hs) fun _ _ ht ↦ ?_
      exact ⟨ht.1, fun _ ↦ ht.2⟩

/-- `recv_command_rsp` is a sequence of moves, and a counted response comes from a mapped peer. -/
theorem goes_recvCommandRsp (valid : Bool) (rsp : CommandRsp) (s : EnclaveState) :
    wp (recvCommandRsp o valid rsp) (fun _ t ↦ Goes (some (.commandRsp rsp)) o s.self s t ∧
      (valid = true → s.self.countsLock rsp = true →
        t.self.peerToEventMap[rsp.source]? = some (s.self.eventOf rsp.source))) s := by
  unfold recvCommandRsp
  rw [wp_bind, wp_getSelf, wp_ite]
  refine ⟨fun h ↦ wp_pure.mpr ⟨Goes.refl s, fun hv ↦ ?_⟩, fun _ ↦ ?_⟩
  · simp [hv] at h
  rw [wp_ite]
  refine ⟨fun h ↦ wp_pure.mpr ⟨Goes.refl s, fun _ counts ↦ ?_⟩, fun htarget ↦ ?_⟩
  · simp [(Peer.countsLock_iff.mp counts).1] at h
  rw [wp_ite]
  refine ⟨fun h ↦ wp_pure.mpr ⟨Goes.refl s, fun _ counts ↦ ?_⟩, fun hleads ↦ ?_⟩
  · exact absurd (Peer.countsLock_iff.mp counts).2.1 h
  rw [wp_ite]
  refine ⟨fun h ↦ ?_, fun hredirect ↦ ?_⟩
  · refine wp_mono (aside_recvRedirect rsp s) fun _ _ ht ↦ ⟨ht.goes, fun _ counts ↦ ?_⟩
    rcases (Peer.countsLock_iff.mp counts).2.2.1 with hg | hg <;> simp [hg] at h
  have hleads : s.self.role = .leader := by simpa using hleads
  rw [wp_bind]
  refine wp_mono (clearMissingResp_spec rsp s) ?_
  rintro _ t ⟨missing, rfl⟩
  have hst : Aside s { s with self := { s.self with missingResp := missing } } :=
    Executes.of_self rfl rfl rfl (SameReads.refl _) id
  have other {v : EnclaveState} (htype : rsp.tag.type ≠ .lock)
      (h : Goes (some (.commandRsp rsp)) o s.self s v) :
      Goes (some (.commandRsp rsp)) o s.self s v ∧ (valid = true → s.self.countsLock rsp = true →
        v.self.peerToEventMap[rsp.source]? = some (s.self.eventOf rsp.source)) :=
    ⟨h, fun _ counts ↦ absurd (Peer.countsLock_iff.mp counts).2.2.2.1 htype⟩
  cases htype : rsp.tag.type with
  | abort =>
    refine wp_mono (goes_recvAbortRsp (p := s.self) htype rfl rfl hleads) fun _ _ h ↦ ?_
    exact other (by simp [htype]) (hst.goes.trans h)
  | exec =>
    refine wp_mono (aside_modifySelf (by simp [Peer.node]) _) fun _ _ h ↦ ?_
    exact other (by simp [htype]) (hst.goes.trans h.goes)
  | lock =>
    refine wp_mono (goes_recvLockRsp (p := s.self) (by simpa using htarget) hleads
      (Bool.eq_false_iff.mpr hredirect) htype ⟨missing, rfl⟩) fun _ _ h ↦ ?_
    exact ⟨hst.goes.trans h.1, fun _ ↦ h.2⟩
  | checkpoint => exact wp_pure.mpr (other (by simp [htype]) hst.goes)

/-! ### Executions and histories -/

/-- Starting an attempt stays outside the replicated log. -/
theorem aside_execute (eventId : Uid) : Along Aside (execute o eventId) := by
  unfold execute
  exact (aside_leaderMapAt _).bind fun leader ↦ along_getSelf.bind fun self ↦
    (aside_generateRandomUid o).bind fun uid ↦ aside_macAndSendMsg rfl

/-- Asking for the history stays outside the replicated log. -/
theorem aside_getHistory : Along Aside getHistory := by
  unfold getHistory
  refine along_getSelf.bind fun self ↦ fun s ↦ ?_
  rw [wp_bind]
  refine wp_mono (wp_mapM (R := Aside) (P := fun m ↦ m.letter = none) (fun event _ t ↦ ?_) s)
    fun reqs t ⟨hst, hreqs⟩ ↦ ?_
  · exact wp_bind_along (aside_leaderMapAt event) fun leader u hu ↦ wp_pure.mpr ⟨hu, rfl⟩
  · exact wp_mono (aside_macAndBroadcastMsgs hreqs t) fun _ _ h ↦ hst.trans h

/-- Answering for the history stays outside the replicated log. -/
theorem aside_recvLogReq (valid : Bool) (req : LogReq) : Along Aside (recvLogReq valid req) := by
  unfold recvLogReq
  refine along_getSelf.bind fun self ↦ Along.ite (Along.pure _) (Along.ite (Along.pure _)
    (Along.ite ?_ (aside_macAndSendMsg rfl)))
  refine Along.bind (fun s ↦ ?_) fun entries ↦ aside_macAndSendMsg rfl
  refine wp_mono (wp_mapM (R := Aside) (P := fun _ ↦ True) (fun i _ t ↦ ?_) s) fun _ _ h ↦ h.1
  exact wp_lift.mpr fun _ _ ↦ ⟨Aside.refl t, trivial⟩

/-- Reading a history response stays outside the replicated log. -/
theorem aside_recvLogRsp (valid : Bool) (rsp : LogRsp) : Along Aside (recvLogRsp valid rsp) := by
  unfold recvLogRsp
  refine Along.ite ((aside_peerToEventMapAt _).bind fun event ↦ Along.ite ?_ ?_) (Along.pure _)
  · exact (aside_modifySelf (by simp [Peer.node])).bind fun _ ↦
      along_getSelf.bind fun self ↦ aside_macAndSendMsg rfl
  · exact Along.modify fun s ↦ { Aside.refl s with }

/-! ### Filed requests -/

/-- Inform sets depend on the relations only. -/
theorem getInformSet_of_sameGraph {w v : DcrWorkflow} (h : SameGraph w v) :
    v.getInformSet = w.getInformSet := by
  funext e
  rw [h]
  rfl

/-- Leaders may be looked up and requests filed; nothing else changes. -/
def Files (s t : EnclaveState) : Prop :=
  ∃ leaders requests, t =
    { s with self := { s.self with leaderMap := leaders, missingResp := requests } }

instance : Std.Refl Files := ⟨fun s ↦ ⟨s.self.leaderMap, s.self.missingResp, rfl⟩⟩

instance : IsTrans EnclaveState Files := ⟨by
  rintro s _ _ ⟨_, _, rfl⟩ ⟨leaders, requests, rfl⟩
  exact ⟨leaders, requests, rfl⟩⟩

private theorem files_modifySelf {f : Peer → Peer} (h : ∀ p, ∃ leaders requests,
    f p = { p with leaderMap := leaders, missingResp := requests }) :
    Along Files (modifySelf f) := fun s ↦ by
  obtain ⟨leaders, requests, he⟩ := h s.self
  exact wp_modifySelf.mpr ⟨leaders, requests, by rw [he]⟩

/-- Looking a leader up changes nothing but the map looked into. -/
theorem files_leaderMapAt (event : Uid) : Along Files (leaderMapAt event) := by
  apply Along.bind fun s ↦ wp_getSelf.mpr (Std.Refl.refl s)
  intro self
  cases self.leaderMap[event]? with
  | some leader => exact Along.pure leader
  | none => exact (files_modifySelf fun p ↦ ⟨_, p.missingResp, rfl⟩).bind fun _ ↦ Along.pure _

private theorem files_eventLeader (tag : CommandTag) (event : Uid) :
    Along Files (eventLeader o tag event) := by
  unfold eventLeader
  refine Along.bind (fun s ↦ wp_getSelf.mpr (Std.Refl.refl s)) fun self ↦ ?_
  split
  · exact Along.pure _
  · split
    · exact (files_modifySelf fun p ↦ ⟨_, p.missingResp, rfl⟩).bind fun _ ↦ Along.pure _
    · exact Along.pure _

/-- The message is a request with this tag. -/
def Commands (tag : CommandTag) (m : Message) : Prop := ∃ req, m = .commandReq req ∧ req.tag = tag

/-- The filed request has the tag. -/
theorem commands_fileCommand (tag : CommandTag) (event : Uid) (s : EnclaveState) :
    wp (fileCommand o tag event) (fun m t ↦ Files s t ∧ Commands tag m) s := by
  unfold fileCommand
  refine wp_bind_along (files_eventLeader tag event) fun leader t ht ↦ ?_
  rw [wp_bind, wp_getSelf]
  refine wp_bind_along (files_modifySelf fun p ↦ ⟨p.leaderMap, _, rfl⟩) fun _ u hu ↦ ?_
  exact wp_pure.mpr ⟨IsTrans.trans _ _ _ ht hu, _, rfl, rfl⟩

/-- For each event one request with the tag is sent. -/
theorem sendCommands_spec (tag : CommandTag) (events : List Uid) (s : EnclaveState) :
    wp (sendCommands o tag events) (fun _ t ↦ ∃ u ms, Files s u ∧
      t = { u with sent := s.sent ++ ms } ∧
      List.Forall₂ (fun _ m ↦ Commands tag m) events ms) s := by
  unfold sendCommands
  rw [wp_bind]
  refine wp_mono (wp_mapM_forall₂ (R := Files) (P := fun _ m ↦ Commands tag m)
    (fun event _ u ↦ commands_fileCommand tag event u) s) ?_
  rintro ms u ⟨hsu, hms⟩
  refine wp_macAndBroadcastMsgs.mpr ⟨u, ms, hsu, ?_, hms⟩
  obtain ⟨_, _, rfl⟩ := hsu
  rfl

end TrustedDcr.Enclave
