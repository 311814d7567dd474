import TrustedDcr.System.Commitment

/-!
# Executions that other clusters hear of

With the last lock acquired a leader first sends the EXEC requests and then appends
its EXEC entry. Only a peer that is alone in its cluster has committed the entry by
the end of the call; any other informs the clusters of an execution it can lose.
-/

namespace TrustedDcr.Enclave
open TrustedDcr.Msg TrustedDcr.Dcr TrustedDcr.Dcr.DcrWorkflow TrustedDcr.Theory

variable {o : Oracle}

/-! ### The call that completes the locks -/

/-- The EXEC entry of an attempt whose locks are complete. `src/enclave/enclave.cpp:651–659`. -/
def Peer.execEntry (p : Peer) (uid : Uid) : Entry :=
  ⟨p.log.length, p.term, p.clusterEvent, p.id, ⟨uid, .exec⟩⟩

/-- The EXEC entry of an attempt is committed. -/
def Peer.ExecCommitted (p : Peer) (uid : Uid) : Prop :=
  ∃ e ∈ p.log.take (p.commitIndex + 1), e.tag = ⟨uid, .exec⟩

instance (p : Peer) (uid : Uid) : Decidable (p.ExecCommitted uid) :=
  inferInstanceAs (Decidable (∃ e ∈ p.log.take (p.commitIndex + 1), _))

/-- With the last lock counted, the requests for the inform set go out, and the log grows by the
EXEC entry, which a leader that is alone commits. -/
theorem countLock_of_acquired {s : EnclaveState} {rsp : CommandRsp} (leads : s.self.role = .leader)
    (acquired : { s.self with
      lockedEvents := s.self.lockedEvents.insert (s.self.eventOf rsp.source) }.locksAquired = true) :
    wp (countLock o rsp) (fun _ t ↦
      t.self.node = { s.self.node with
        log := s.self.log ++ [s.self.execEntry rsp.tag.uid]
        commitIndex :=
          if s.self.clusterSize = 1 then s.self.log.length else s.self.commitIndex } ∧
      ∃ ms, ms <:+: t.sent ∧ List.Forall₂ (fun _ m ↦ Commands ⟨rsp.tag.uid, .exec⟩ m)
        (s.self.workflow.getInformSet s.self.clusterEvent).toList ms) s := by
  unfold countLock
  rw [wp_bind]
  refine wp_mono (peerToEventMapAt_spec rsp.source s) fun event t ⟨hst, hevent, _⟩ ↦ ?_
  refine wp_bind_modifySelf fun u hu ↦ ?_
  have hnode : u.self.node = s.self.node := by
    rw [hu]
    exact hst.node
  have hcluster : u.self.clusterEvent = s.self.clusterEvent := by
    rw [hu]
    exact hst.clusterEvent
  have hgraph : SameGraph s.self.workflow u.self.workflow := by
    rw [hu]
    exact hst.reads.graph
  have hlocks : u.self.locksAquired = true := by
    rw [← acquired, hu]
    unfold Peer.locksAquired
    dsimp only
    rw [getLockSet_of_sameGraph hst.reads.graph, hst.clusterEvent, hst.lockedEvents, hevent]
    rfl
  clear hu
  rw [wp_bind, wp_getSelf, if_pos hlocks, show u.self.log = s.self.log from congrArg Node.log hnode,
    show u.self.term = s.self.term from congrArg Node.term hnode,
    show u.self.id = s.self.id from congrArg Node.id hnode, hcluster, wp_bind]
  unfold sendExecution
  rw [wp_bind, wp_getSelf, getInformSet_of_sameGraph hgraph, hcluster]
  refine wp_mono (sendCommands_spec _ _ u) ?_
  rintro _ v ⟨_, ms, ⟨leaders, requests, rfl⟩, hv, hms⟩
  have hnode' : v.self.node = s.self.node := by
    rw [hv]
    exact hnode
  have hsent : u.sent ++ ms = v.sent := by rw [hv]
  clear hv
  rw [wp_bind]
  refine wp_mono (appendToLog_spec ((congrArg Node.role hnode').trans leads)) ?_
  rintro _ w ⟨hvw, hw⟩
  rw [wp_modifySelf]
  refine ⟨?_, ms, ?_, hms⟩
  · change w.self.node = _
    rw [hw, hnode', show v.self.log = s.self.log from congrArg Node.log hnode',
      show v.self.clusterSize = s.self.clusterSize from congrArg Node.clusterSize hnode',
      show v.self.commitIndex = s.self.commitIndex from congrArg Node.commitIndex hnode']
    rfl
  · rw [← hsent] at hvw
    exact (List.suffix_append u.sent ms).isInfix.trans hvw.isInfix

/-- So it is when a response completes the locks. `src/enclave/enclave.cpp:647–664`. -/
theorem recvCommandRsp_of_completesLocks {s : EnclaveState} {rsp : CommandRsp}
    (complete : s.self.completesLocks rsp = true) :
    wp (recvCommandRsp o true rsp) (fun _ t ↦
      t.self.node = { s.self.node with
        log := s.self.log ++ [s.self.execEntry rsp.tag.uid]
        commitIndex :=
          if s.self.clusterSize = 1 then s.self.log.length else s.self.commitIndex } ∧
      ∃ ms, ms <:+: t.sent ∧ List.Forall₂ (fun _ m ↦ Commands ⟨rsp.tag.uid, .exec⟩ m)
        (s.self.workflow.getInformSet s.self.clusterEvent).toList ms) s := by
  obtain ⟨counts, acquired⟩ := Bool.and_eq_true_iff.mp complete
  obtain ⟨target, leads, granted, type, lockIndex, found, unresolved⟩ :=
    Peer.countsLock_iff.mp counts
  unfold recvCommandRsp
  rw [wp_bind, wp_getSelf, if_neg (by simp), if_neg (by simp [target]),
    if_neg (by simp [leads]), if_neg (by rcases granted with h | h <;> simp [h]), wp_bind]
  refine wp_mono (clearMissingResp_spec rsp s) ?_
  rintro _ _ ⟨missing, rfl⟩
  rw [type]
  unfold recvLockRsp
  rw [wp_bind, wp_getSelf]
  -- the entry is found in the log as before, whatever was taken off the outstanding requests
  have found' : Peer.existInLog { s.self with missingResp := missing } rsp.tag = some lockIndex :=
    found
  rw [found']
  dsimp only
  rw [wp_bind, wp_lift]
  intro resolved hresolved
  obtain rfl := Except.ok.inj (unresolved.symm.trans hresolved)
  rw [if_neg (by simp)]
  exact countLock_of_acquired leads acquired

/-- Where a lock is found unresolved, every committed entry has been read. -/
theorem Peer.commitIndex_lt_of_unresolved {p : Peer} {i : Nat} (h : p.lockIsResolved i = .ok false) :
    p.commitIndex < p.log.length := by
  unfold Peer.lockIsResolved at h
  cases hlock : p.entryAt i with
  | error =>
    rw [hlock] at h
    exact nomatch h
  | ok lock =>
    rw [hlock] at h
    change (if lock.tag.type ≠ .lock then _ else _ : Except Fault Bool) = _ at h
    have hi := (List.getElem?_eq_some_iff.mp (entryAt_ok hlock)).1
    split at h
    · exact nomatch h
    · rcases Nat.lt_or_ge i p.commitIndex with hlt | hge
      · generalize hfound : firstIndex _ _ = found at h
        match found, h with
        | .ok none, _ =>
          have hread := firstIndex_eq_none hfound p.commitIndex (List.mem_range'_1.mpr (by omega))
          cases hlast : p.entryAt p.commitIndex with
          | error =>
            rw [hlast] at hread
            exact nomatch hread
          | ok last => exact (List.getElem?_eq_some_iff.mp (entryAt_ok hlast)).1
      · omega

end TrustedDcr.Enclave

namespace TrustedDcr.System
open TrustedDcr.Msg TrustedDcr.Dcr TrustedDcr.Enclave TrustedDcr.Theory

/-- The leader completes the locks of the attempt, and its event has clusters to inform. -/
def Informs (s : World) (a : Action) (uid : Uid) : Prop :=
  match a.call with
  | .recv (.commandRsp rsp) => rsp.tag.uid = uid ∧ (s.peers a.peer).completesLocks rsp = true ∧
      ((s.peers a.peer).workflow.getInformSet (s.peers a.peer).clusterEvent).toList ≠ []
  | _ => False

instance (s : World) (a : Action) (uid : Uid) : Decidable (Informs s a uid) := by
  unfold Informs
  induction a.call using Call.casesOn with
  | recv m => induction m using Message.casesOn <;> infer_instance
  | _ => infer_instance

/-- A leader informs other clusters only when it is alone in its own, or has the execution
committed already. -/
def InformsDurably (s : World) (a : Action) : Prop :=
  match a.call with
  | .recv (.commandRsp rsp) => Informs s a rsp.tag.uid →
      (s.peers a.peer).clusterSize = 1 ∨ (s.peers a.peer).ExecCommitted rsp.tag.uid
  | _ => True

instance (s : World) (a : Action) : Decidable (InformsDurably s a) := by
  unfold InformsDurably
  induction a.call using Call.casesOn with
  | recv m => induction m using Message.casesOn <;> infer_instance
  | _ => infer_instance

/-- Every informing step of the run has left its execution committed. -/
def InformsCommitted : Hist → World → Prop
  | [], _ => True
  | (s', a) :: h, s => InformsCommitted h s' ∧
      ∀ uid, Informs s' a uid → (s.peers a.peer).ExecCommitted uid

section
variable {cfg : Config} {h : Hist} {s t : World} {a : Action} {uid : Uid}

/-- An informing step sends an EXEC request for each event of the inform set, and adds the EXEC entry
to the log, which a peer that is alone commits. -/
theorem Informs.step (informs : Informs s a uid) (next : s.step cfg a = some t) :
    (t.peers a.peer).log = (s.peers a.peer).log ++ [(s.peers a.peer).execEntry uid] ∧
      (t.peers a.peer).commitIndex = (if (s.peers a.peer).clusterSize = 1 then
        (s.peers a.peer).log.length else (s.peers a.peer).commitIndex) ∧
      (s.peers a.peer).commitIndex < (s.peers a.peer).log.length ∧
      ∃ ms, ms ⊆ t.net ∧ List.Forall₂ (fun _ m ↦ Commands ⟨uid, .exec⟩ m)
        ((s.peers a.peer).workflow.getInformSet (s.peers a.peer).clusterEvent).toList ms := by
  unfold Informs at informs
  split at informs
  · next rsp received =>
    obtain ⟨rfl, complete, -⟩ := informs
    obtain ⟨-, e, ⟨hnode, ms, hms, hcommands⟩, hpeers, hnet, -⟩ :=
      World.step_of_wp (a := a) next (by
        rw [received]
        exact recvCommandRsp_of_completesLocks complete)
    obtain ⟨counts, -⟩ := Bool.and_eq_true_iff.mp complete
    obtain ⟨-, -, -, -, i, -, unresolved⟩ := Peer.countsLock_iff.mp counts
    rw [hpeers, Function.update_self]
    refine ⟨congrArg Node.log hnode, congrArg Node.commitIndex hnode,
      Peer.commitIndex_lt_of_unresolved unresolved, ms, fun m hm ↦ ?_, hcommands⟩
    rw [hnet]
    exact List.mem_append_right _ (hms.mem hm)
  · exact informs.elim

/-- After an informing step the execution is committed when the peer is alone, or when it was so
before. -/
theorem Informs.execCommitted_iff (informs : Informs s a uid) (next : s.step cfg a = some t) :
    (t.peers a.peer).ExecCommitted uid ↔
      (s.peers a.peer).clusterSize = 1 ∨ (s.peers a.peer).ExecCommitted uid := by
  obtain ⟨hlog, hcommit, hlt, -⟩ := informs.step next
  unfold Peer.ExecCommitted
  rw [hlog, hcommit]
  by_cases halone : (s.peers a.peer).clusterSize = 1
  · rw [if_pos halone, List.take_of_length_le (by simp)]
    simp [halone, Peer.execEntry]
  · rw [if_neg halone, List.take_append_of_le_length (by omega)]
    simp [halone]

/-- The condition is about the attempt the step informs of. -/
theorem informsDurably_iff : InformsDurably s a ↔ ∀ uid, Informs s a uid →
    (s.peers a.peer).clusterSize = 1 ∨ (s.peers a.peer).ExecCommitted uid := by
  unfold InformsDurably Informs
  split
  · next rsp _ =>
    constructor
    · rintro durable _ ⟨rfl, informs⟩
      exact durable ⟨rfl, informs⟩
    · exact fun durable informs ↦ durable _ informs
  · simp

/-- Over a run, the executions informed of are committed by the end of the step exactly when all
steps inform durably. -/
theorem Run.informsCommitted_iff {C : Hist → World → Action → Prop} (run : Run cfg C h s) :
    InformsCommitted h s ↔ ∀ step ∈ h, InformsDurably step.1 step.2 := by
  induction run with
  | initial => simp [InformsCommitted]
  | step _ _ next ih =>
    rw [InformsCommitted, ih, List.forall_mem_cons, informsDurably_iff, and_comm]
    refine and_congr_left' (forall_congr' fun uid ↦ imp_congr_right fun informs ↦ ?_)
    exact informs.execCommitted_iff next

/-- A step that commits safely keeps executions committed. -/
theorem ExecCommitted.step (run : Run cfg (CommitsSafely cfg) h s) (meets : CommitsSafely cfg h s a)
    (next : s.step cfg a = some t) {p : Uid} (hp : p ∈ cfg.peerToEventMap)
    (committed : (s.peers p).ExecCommitted uid) : (t.peers p).ExecCommitted uid := by
  obtain ⟨hle, hpre⟩ := committed_of_step run meets next (Config.mem_cluster_clusterOf hp)
  obtain ⟨e, he, tag⟩ := committed
  refine ⟨e, ?_, tag⟩
  have hpre' : (s.peers p).log.take ((s.peers p).commitIndex + 1) <+:
      (t.peers p).log.take ((t.peers p).commitIndex + 1) := by
    rw [List.prefix_take_iff]
    exact ⟨hpre, (List.length_take_le _ _).trans (by omega)⟩
  exact hpre'.mem he

/-- From then on they stay committed in a run that commits safely. -/
theorem Run.execCommitted (run : Run cfg (CommitsSafely cfg) h s)
    (durable : ∀ step ∈ h, InformsDurably step.1 step.2) {s' : World} {a' : Action}
    (hstep : (s', a') ∈ h) (informs : Informs s' a' uid) :
    (s.peers a'.peer).ExecCommitted uid := by
  induction run with
  | initial => exact nomatch hstep
  | step run meets next ih =>
    obtain ⟨hlast, hrest⟩ := List.forall_mem_cons.mp durable
    rcases List.mem_cons.mp hstep with he | hstep
    · cases he
      exact (informs.execCommitted_iff next).mpr (informsDurably_iff.mp hlast _ informs)
    · exact ExecCommitted.step run meets next (run.allowed _ hstep).1 (ih hrest hstep)

end

/-- The executions a run informs other clusters of are committed at the end of the step exactly when
every informing leader is alone in its cluster or has the execution committed before; and in a run
that commits safely they then stay committed. `src/enclave/enclave.cpp:647–664`. -/
theorem informed_executions_durable_iff {cfg : Config} {h : Hist} {s : World}
    (run : Run cfg anyStep h s) :
    (InformsCommitted h s ↔ ∀ step ∈ h, InformsDurably step.1 step.2) ∧
      (Run cfg (CommitsSafely cfg) h s → (∀ step ∈ h, InformsDurably step.1 step.2) →
        ∀ s' a uid, (s', a) ∈ h → Informs s' a uid → (s.peers a.peer).ExecCommitted uid) :=
  ⟨run.informsCommitted_iff, fun safe durable _ _ _ hstep informs ↦
    safe.execCommitted durable hstep informs⟩

/-- The only peer of an event commits its execution in the step that informs the other cluster. -/
theorem rivals_informed_executions_durable : ∃ h s, Run rivals anyStep h s ∧ InformsCommitted h s ∧
    (s.peers ⟨0, 11⟩).ExecCommitted ⟨0, 101⟩ := by
  obtain ⟨h, s, safe, durable, ⟨s', a⟩, hstep, hpeer, informs⟩ := exists_run_of_replay rivals
    (CommitsSafely rivals)
    [.start ⟨0, 11⟩ ⟨0, 1⟩ ⟨0, 101⟩, .deliver ⟨0, 11⟩ 0, .deliver ⟨0, 21⟩ 1, .deliver ⟨0, 11⟩ 2,
      .tick ⟨0, 11⟩ 1 emptyUid]
    (fun h s ↦ (∀ step ∈ h, InformsDurably step.1 step.2) ∧
      ∃ step ∈ h, step.2.peer = ⟨0, 11⟩ ∧ Informs step.1 step.2 ⟨0, 101⟩)
    (by decide +kernel)
  have run : Run rivals anyStep h s := safe.mono fun _ _ _ _ ↦ trivial
  obtain ⟨hiff, stays⟩ := informed_executions_durable_iff run
  exact ⟨h, s, run, hiff.mpr durable, hpeer ▸ stays safe durable s' a _ hstep informs⟩

/-- The leader of two peers informs the other cluster while its execution is in no other log. -/
theorem not_informed_executions_durable : ¬ ∀ (cfg : Config) (h : Hist) (s : World),
    Run cfg anyStep h s → InformsCommitted h s := by
  intro claim
  obtain ⟨h, s, a, t, run, meets, next, informs, uncommitted⟩ := exists_step_of_replay trio anyStep
    [.tick ⟨0, 11⟩ 1 emptyUid, .tick ⟨0, 12⟩ 1 emptyUid, .tick ⟨0, 11⟩ 10000 emptyUid,
      .deliver ⟨0, 12⟩ 0, .deliver ⟨0, 11⟩ 1, .deliver ⟨0, 12⟩ 2, .deliver ⟨0, 11⟩ 3,
      .start ⟨0, 11⟩ ⟨0, 1⟩ ⟨0, 101⟩, .deliver ⟨0, 11⟩ 5, .deliver ⟨0, 12⟩ 6, .deliver ⟨0, 11⟩ 7,
      .deliver ⟨0, 21⟩ 8]
    (.deliver ⟨0, 11⟩ 9)
    (fun _ s a t ↦ Informs s a ⟨0, 101⟩ ∧ ¬(t.peers a.peer).ExecCommitted ⟨0, 101⟩)
    (by decide +kernel)
  exact uncommitted ((claim trio _ t (run.step meets next)).2 _ informs)

end TrustedDcr.System
