import TrustedDcr.Enclave.Aborts

/-!
# What a response leaves outstanding

The requests that the handling of a response files, and with them the whole of
`missing_resp` after the call, as a function of the peer before it.
-/

namespace TrustedDcr.Enclave
open TrustedDcr.Msg TrustedDcr.Dcr TrustedDcr.Dcr.DcrWorkflow TrustedDcr.Theory

variable {o : Oracle}

/-! ### The whole call -/

/-- The response of the source completes the locks or not; a LOCK response to an attempt that is
resolved is answered. `src/enclave/enclave.cpp:631–633`. -/
def Peer.answersResolved (p : Peer) (rsp : CommandRsp) : Bool :=
  match p.existInLog rsp.tag with
  | some i =>
    match p.lockIsResolved i, p.lockResolveIsCommitted i with
    | .ok resolved, .ok committed => resolved && committed
    | _, _ => false
  | none => false

/-- A LOCK that counts is not answered as resolved. -/
theorem Peer.answersResolved_of_countsLock {p : Peer} {rsp : CommandRsp}
    (counts : p.countsLock rsp = true) : p.answersResolved rsp = false := by
  obtain ⟨-, -, -, -, i, found, unresolved⟩ := countsLock_iff.mp counts
  unfold answersResolved
  rw [found]
  dsimp only
  rw [unresolved]
  cases p.lockResolveIsCommitted i <;> rfl

/-- The requests that the handling of a response files, each under its target. -/
def Peer.files (p : Peer) (o : Oracle) (rsp : CommandRsp) : List CommandReq :=
  match rsp.tag.type with
  | .abort =>
    if p.startsAbort rsp.source then
      { p with missingResp := p.cleared rsp }.aborts o.junkEntry.tag.uid
        (p.workflow.getLockSet p.clusterEvent).toList
    else []
  | .lock =>
    if p.completesLocks rsp then
      (p.mapPeer rsp.source).commandsTo o ⟨rsp.tag.uid, .exec⟩
        (p.workflow.getInformSet p.clusterEvent).toList
    else if p.answersResolved rsp then [p.resolveRequest o rsp]
    else []
  | .exec | .checkpoint => []

/-- A response files one and the same request for one peer. -/
theorem Peer.distinct_files (p : Peer) (rsp : CommandRsp) : Distinct (p.files o rsp) := by
  have none : Distinct [] := fun _ h ↦ nomatch h
  unfold files
  split
  · split
    · exact Peer.distinct_aborts _ _ _
    · exact none
  · split
    · exact (p.mapPeer rsp.source).distinct_commandsTo _ _
    · split
      · intro req hreq req' hreq' _
        rw [List.mem_singleton.mp hreq, List.mem_singleton.mp hreq']
      · exact none
  · exact none
  · exact none

/-- With the last lock counted the EXEC requests are filed. -/
theorem countLock_missing {rsp : CommandRsp} {s : EnclaveState}
    (settled : s.self.clusterSize = 1 → s.self.log.length = s.self.commitIndex + 1) :
    wp (countLock o rsp) (fun _ t ↦ t.self.missingResp =
      if { s.self with
        lockedEvents := s.self.lockedEvents.insert (s.self.eventOf rsp.source) }.locksAquired then
        fileAll ((s.self.mapPeer rsp.source).commandsTo o ⟨rsp.tag.uid, .exec⟩
          (s.self.workflow.getInformSet s.self.clusterEvent).toList) s.self.missingResp
      else s.self.missingResp) s := by
  unfold countLock
  refine wp_bind_of_ok (peerToEventMapAt_eq rsp.source s) (wp_bind_modifySelf fun t ht ↦ ?_)
  have locks : t.self.locksAquired = { s.self with
      lockedEvents := s.self.lockedEvents.insert (s.self.eventOf rsp.source) }.locksAquired := by
    rw [ht]
    rfl
  rw [wp_bind, wp_getSelf, wp_ite, ← locks]
  constructor
  · intro acquired
    rw [if_pos acquired]
    unfold sendExecution
    rw [wp_bind, wp_bind, wp_getSelf]
    refine wp_mono (filed_sendCommands _ _ t) ?_
    rintro _ _ ⟨_, ⟨⟨leaders, rfl⟩, -⟩, rfl⟩
    rw [wp_bind]
    refine wp_mono (appendToLog_of_exec rfl ?_) fun _ u hu ↦ ?_
    · rw [ht]
      exact settled
    · rw [wp_modifySelf]
      refine hu.trans ?_
      rw [ht]
      rfl
  · intro incomplete
    rw [if_neg incomplete, wp_pure, ht]
    rfl

/-- A LOCK response that is handled counts when its LOCK is in the log and not resolved. -/
theorem Peer.Handles.countsLock_iff {valid : Bool} {p : Peer} {rsp : CommandRsp}
    (handles : p.Handles valid rsp) (type : rsp.tag.type = .lock) : p.countsLock rsp = true ↔
      ∃ i, p.existInLog rsp.tag = some i ∧ p.lockIsResolved i = .ok false := by
  obtain ⟨-, target, leads, granted⟩ := handles
  rw [Peer.countsLock_iff]
  tauto

private theorem recvLockRsp_missing {valid : Bool} {rsp : CommandRsp} {s : EnclaveState}
    (handles : s.self.Handles valid rsp) (type : rsp.tag.type = .lock)
    (settled : s.self.clusterSize = 1 → s.self.log.length = s.self.commitIndex + 1) :
    wp (recvLockRsp o rsp)
      (fun _ t ↦ t.self.missingResp = fileAll (s.self.files o rsp) s.self.missingResp) s := by
  have counts_iff := handles.countsLock_iff type
  unfold recvLockRsp Peer.files Peer.completesLocks
  rw [wp_bind, wp_getSelf, type]
  dsimp only
  cases found : s.self.existInLog rsp.tag with
  | none =>
    have ignored : s.self.countsLock rsp = false := by
      rw [Bool.eq_false_iff, Ne, counts_iff, found]
      rintro ⟨i, hi, -⟩
      exact nomatch hi
    unfold Peer.answersResolved
    rw [ignored, found]
    exact wp_pure.mpr rfl
  | some i =>
    dsimp only
    rw [wp_bind, wp_lift]
    intro resolved hresolved
    have counts : s.self.countsLock rsp = !resolved := by
      rw [Bool.eq_iff_iff, counts_iff, found]
      simp [hresolved]
    rw [counts]
    cases resolved with
    | true =>
      rw [if_pos rfl]
      unfold answerResolved
      rw [wp_bind, wp_getSelf, wp_bind, wp_lift]
      intro committed hcommitted
      have answers : s.self.answersResolved rsp = committed := by
        unfold Peer.answersResolved
        rw [found]
        dsimp only
        rw [hresolved, hcommitted]
        rfl
      rw [answers]
      cases committed with
      | true =>
        rw [if_pos rfl, wp_bind, wp_modifySelf, wp_macAndSendMsg]
        rfl
      | false =>
        rw [if_neg Bool.false_ne_true, wp_pure]
        rfl
    | false =>
      rw [if_neg Bool.false_ne_true]
      have answers : s.self.answersResolved rsp = false :=
        Peer.answersResolved_of_countsLock (counts.trans rfl)
      refine wp_mono (countLock_missing settled) fun _ t ht ↦ ht.trans ?_
      rw [answers, Bool.not_false, Bool.true_and]
      split
      · rfl
      · rfl

private theorem recvAbortRsp_missing {rsp : CommandRsp} {s : EnclaveState}
    (leads : s.self.role = .leader)
    (settled : s.self.clusterSize = 1 → s.self.log.length = s.self.commitIndex + 1) :
    wp (recvAbortRsp o rsp) (fun _ t ↦ t.self.missingResp =
      fileAll (if s.self.startsAbort rsp.source then s.self.aborts o.junkEntry.tag.uid
        (s.self.workflow.getLockSet s.self.clusterEvent).toList else []) s.self.missingResp) s := by
  cases starts : s.self.startsAbort rsp.source with
  | false =>
    refine wp_mono (recvAbortRsp_of_not_starts starts) ?_
    rintro _ _ ⟨⟨_, rfl⟩, -⟩
    rfl
  | true =>
    obtain ⟨t, hst, he⟩ := recvAbortRsp_of_starts (o := o) starts
    have same : t.self.aborts o.junkEntry.tag.uid
        (t.self.workflow.getLockSet t.self.clusterEvent).toList =
        s.self.aborts o.junkEntry.tag.uid
          (s.self.workflow.getLockSet s.self.clusterEvent).toList := by
      rw [hst.aborts]
      obtain ⟨⟨_, rfl⟩, -⟩ := hst
      rfl
    obtain ⟨⟨leaders, ht⟩, -⟩ := hst
    intro _ u hu
    rw [he] at hu
    rw [if_pos rfl, ← same]
    by_cases alone : t.self.clusterSize = 1
    · refine (not_returns_abortExecution o.junkEntry.tag.uid alone ?_ ?_ _ u hu).elim
      · rw [ht]
        exact leads
      · rw [ht] at alone ⊢
        have := settled alone
        dsimp only
        omega
    · rw [(abortExecution_of_uncommitted o.junkEntry.tag.uid (fun h ↦ absurd h alone) _ u hu).2.1, ht]
      rfl

/-- What the handling of a response leaves outstanding: what was not answered, and over it what is
filed; an EXEC response removes whatever its source has outstanding. -/
theorem recvCommandRsp_missing {valid : Bool} {rsp : CommandRsp} {s : EnclaveState}
    (handles : s.self.Handles valid rsp)
    (settled : s.self.clusterSize = 1 → s.self.log.length = s.self.commitIndex + 1) :
    wp (recvCommandRsp o valid rsp) (fun _ t ↦ t.self.missingResp =
      if rsp.tag.type = .exec then (s.self.cleared rsp).erase rsp.source
      else fileAll (s.self.files o rsp) (s.self.cleared rsp)) s := by
  intro _ t ht
  rw [recvCommandRsp_of_handles handles] at ht
  cases htype : rsp.tag.type with
  | exec =>
    rw [htype] at ht
    obtain ⟨⟩ := ht
    rfl
  | checkpoint =>
    rw [htype] at ht
    obtain ⟨⟩ := ht
    unfold Peer.files
    rw [htype]
    rfl
  | abort =>
    rw [htype] at ht
    unfold Peer.files
    rw [htype]
    exact recvAbortRsp_missing (s := { s with
      self := { s.self with missingResp := s.self.cleared rsp } }) handles.2.2.1 settled _ t ht
  | lock =>
    rw [htype] at ht
    have filed := recvLockRsp_missing (s := { s with
      self := { s.self with missingResp := s.self.cleared rsp } }) handles htype settled _ t ht
    unfold Peer.files at filed ⊢
    rw [htype] at filed ⊢
    exact filed

end TrustedDcr.Enclave
