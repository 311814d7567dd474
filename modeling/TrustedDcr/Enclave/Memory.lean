import TrustedDcr.Enclave.Filing
import TrustedDcr.Enclave.LockIndex

/-!
# What a leader remembers of its attempts

Of the locks that an attempt still needs, a leader has the ones it has acquired in
`locked_events` and the ones it has asked for in `missing_resp`, and the replicated
log has neither. What the calls of a leader do to the two.
-/

namespace TrustedDcr.Enclave
open TrustedDcr.Msg TrustedDcr.Dcr TrustedDcr.Dcr.DcrWorkflow TrustedDcr.Theory

variable {o : Oracle}

namespace Peer

/-! ### Open attempts -/

/-- For every committed LOCK of the own event that no EXEC or ABORT of its identifier follows in the
log, and every event of the lock set. -/
def EveryLock (p : Peer) (P : Uid → Uid → Prop) : Prop :=
  ∀ i < p.commitIndex + 1, ∀ lock ∈ p.log[i]?, p.ownLock lock = true →
    (∀ e ∈ p.log.drop (i + 1), e.tag ≠ ⟨lock.tag.uid, .exec⟩ ∧ e.tag ≠ ⟨lock.tag.uid, .abort⟩) →
    ∀ event ∈ (p.workflow.getLockSet p.clusterEvent).toList, P lock.tag.uid event

/-- A LOCK request of the attempt is outstanding under the peer, which is one of the event. -/
def Asks (p : Peer) (uid event peer : Uid) : Prop :=
  p.peerToEventMap[peer]? = some event ∧ ∃ req ∈ p.missingResp[peer]?, req.tag = ⟨uid, .lock⟩

/-- The lock of the event is acquired or asked for. -/
def Remembered (p : Peer) (uid event : Uid) : Prop :=
  event ∈ p.lockedEvents ∨ ∃ peer, p.Asks uid event peer

/-- Every lock of an open attempt is acquired or asked for. -/
def Remembers (p : Peer) : Prop := p.EveryLock p.Remembered

/-- The lock is asked for under a peer that is none of the given ones. -/
def AsksBeside (p : Peer) (peers : List Uid) (uid event : Uid) : Prop :=
  ∃ r ∈ p.missingResp.toList, r.1 ∉ peers ∧ p.Asks uid event r.1

instance (p : Peer) (P : Uid → Uid → Prop) [∀ uid event, Decidable (P uid event)] :
    Decidable (p.EveryLock P) := by
  unfold EveryLock
  infer_instance

instance (p : Peer) (uid event peer : Uid) : Decidable (p.Asks uid event peer) := by
  unfold Asks
  infer_instance

instance (p : Peer) (peers : List Uid) (uid event : Uid) :
    Decidable (p.AsksBeside peers uid event) := by
  unfold AsksBeside
  infer_instance

variable {p q : Peer} {P Q : Uid → Uid → Prop}

/-- A lock is asked for beside some peers exactly if another peer is asked for it. -/
theorem asksBeside_iff {peers : List Uid} {uid event : Uid} :
    p.AsksBeside peers uid event ↔ ∃ peer, peer ∉ peers ∧ p.Asks uid event peer := by
  unfold AsksBeside
  constructor
  · rintro ⟨r, -, other, asks⟩
    exact ⟨r.1, other, asks⟩
  · rintro ⟨peer, other, asks⟩
    have ⟨_, req, hreq, _⟩ := asks
    exact ⟨(peer, req), Std.ExtTreeMap.mem_toList_iff_getElem?_eq_some.mpr hreq, other, asks⟩

private theorem remembered_iff {uid event : Uid} :
    p.Remembered uid event ↔ event ∈ p.lockedEvents ∨ p.AsksBeside [] uid event := by
  simp [Remembered, asksBeside_iff]

instance (p : Peer) (uid event : Uid) : Decidable (p.Remembered uid event) :=
  decidable_of_iff _ remembered_iff.symm

instance (p : Peer) : Decidable p.Remembers := inferInstanceAs (Decidable (p.EveryLock _))

/-- What holds of every lock may be weakened. -/
theorem EveryLock.mono (h : p.EveryLock P) (hPQ : ∀ uid event, P uid event → Q uid event) :
    p.EveryLock Q :=
  fun i hi lock found own opened event he ↦ hPQ _ _ (h i hi lock found own opened event he)

/-- A leader of the same cluster with a longer log, of which it has committed no more own LOCKs. -/
structure Continues (p q : Peer) : Prop where
  inside : p.commitIndex < p.log.length
  clusterEvent : q.clusterEvent = p.clusterEvent
  workflow : SameGraph p.workflow q.workflow
  mapped : ∀ {k v : Uid}, p.peerToEventMap[k]? = some v → q.peerToEventMap[k]? = some v
  log : p.log <+: q.log
  none : ∀ e ∈ (q.log.take (q.commitIndex + 1)).drop (p.commitIndex + 1), p.ownLock e = false

/-- Its open attempts were open before, and none is ended by what is appended. -/
theorem Continues.everyLock (pq : p.Continues q) (h : p.EveryLock P) :
    q.EveryLock fun uid event ↦ P uid event ∧
      ∀ e ∈ q.log.drop p.log.length, e.tag ≠ ⟨uid, .exec⟩ ∧ e.tag ≠ ⟨uid, .abort⟩ := by
  intro i hi lock found own opened event hevent
  have inside := pq.inside
  have own : p.ownLock lock = true := by
    unfold ownLock at own ⊢
    rwa [pq.clusterEvent] at own
  have old : i ≤ p.commitIndex := by
    by_contra new
    rw [pq.none lock (mem_section_iff.mpr ⟨i, by omega, by omega, found⟩)] at own
    exact nomatch own
  rw [getLockSet_of_sameGraph pq.workflow, pq.clusterEvent] at hevent
  constructor
  · refine h i (by omega) lock ?_ own (fun e he ↦ opened e ?_) event hevent
    · exact getElem?_eq_of_isPrefix pq.log (show i < p.log.length by omega) ▸ found
    · exact (pq.log.drop (i + 1)).subset he
  · refine fun e he ↦ opened e ?_
    rw [show p.log.length = i + 1 + (p.log.length - (i + 1)) by omega, ← List.drop_drop] at he
    exact List.mem_of_mem_drop he

/-- A request that stays outstanding is still asked for. -/
theorem Asks.of_eq {uid event peer : Uid} (h : p.Asks uid event peer)
    (mapped : ∀ {k v : Uid}, p.peerToEventMap[k]? = some v → q.peerToEventMap[k]? = some v)
    (same : q.missingResp[peer]? = p.missingResp[peer]?) : q.Asks uid event peer := by
  obtain ⟨known, req, hreq, tag⟩ := h
  exact ⟨mapped known, req, same ▸ hreq, tag⟩

/-- What is remembered stays so where nothing is forgotten. -/
theorem Continues.remembers (pq : p.Continues q) (h : p.Remembers)
    (locked : q.lockedEvents = p.lockedEvents) (missing : q.missingResp = p.missingResp) :
    q.Remembers := by
  refine (pq.everyLock h).mono fun uid event ⟨remembered, _⟩ ↦ ?_
  rcases remembered with acquired | ⟨peer, asks⟩
  · exact Or.inl (locked ▸ acquired)
  · exact Or.inr ⟨peer, asks.of_eq pq.mapped (by rw [missing])⟩

end Peer

/-! ### Filing over -/

/-- The last request filed for a peer is outstanding from it, and what it had before otherwise. -/
theorem getElem?_fileAll_last (reqs : List CommandReq) (missing : UidMap CommandReq) (k : Uid) :
    (fileAll reqs missing)[k]? =
      ((reqs.filter fun req ↦ req.target == k).getLast?).or missing[k]? := by
  unfold fileAll
  induction reqs generalizing missing with
  | nil => rfl
  | cons first reqs ih =>
    rw [List.foldl_cons, ih, getElem?_insert_uid]
    by_cases hk : first.target = k
    · rw [List.filter_cons_of_pos (by simpa using hk), List.getLast?_cons, if_pos hk]
      cases (reqs.filter fun req ↦ req.target == k).getLast? <;> rfl
    · rw [List.filter_cons_of_neg (by simpa using hk), if_neg hk]

private theorem fileAll_append (reqs reqs' : List CommandReq) (missing : UidMap CommandReq) :
    fileAll (reqs ++ reqs') missing = fileAll reqs' (fileAll reqs missing) := List.foldl_append

/-! ### Calls -/

/-- What a leader remembers. -/
def Peer.memory (p : Peer) : UidSet × UidMap CommandReq := (p.lockedEvents, p.missingResp)

/-- What a leader remembers has to do neither with routing nor with timers or votes. -/
theorem apart_memory : Apart Peer.memory :=
  ⟨fun _ _ ↦ rfl, fun _ _ ↦ rfl, fun _ _ _ ↦ rfl, fun _ _ ↦ rfl, fun _ _ ↦ rfl⟩

/-- The leader's loop files the LOCK requests. -/
theorem memory_commitEntries (round : Nat) (entries : List Entry) (s : EnclaveState) :
    wp (commitEntries o round entries) (fun _ t ↦ t.self.memory =
      (s.self.lockedEvents, fileAll (s.self.lockRequests o entries) s.self.missingResp)) s := by
  induction entries generalizing round s with
  | nil => exact wp_pure.mpr rfl
  | cons entry entries ih =>
    have one : wp (commitEntry o round entry) (fun _ t ↦
        t.self.commander o = s.self.commander o ∧ t.self.memory =
          (s.self.lockedEvents, fileAll (s.self.lockRequests o [entry]) s.self.missingResp)) s := by
      have other (h : s.self.ownLock entry = false) : s.self.memory =
          (s.self.lockedEvents, fileAll (s.self.lockRequests o [entry]) s.self.missingResp) := by
        simp [Peer.lockRequests, h, fileAll, Peer.memory]
      refine wp_commitEntry ?_ ?_ ?_ ?_ ?_
      · exact fun type ↦ ⟨rfl, other (by simp [Peer.ownLock, type])⟩
      · intro type own
        unfold sendLockRequests
        rw [wp_bind, wp_getSelf]
        refine wp_mono (filed_sendCommands _ _ s) ?_
        rintro _ _ ⟨u, filed, rfl⟩
        have commander : u.self.commander o = s.self.commander o := Peer.commander_of_filed filed
        refine ⟨commander, ?_⟩
        obtain ⟨⟨leaders, rfl⟩, -⟩ := filed
        simp [Peer.lockRequests, Peer.ownLock, own, type, Peer.memory, Peer.lockCommands]
      · exact fun type foreign ↦ ⟨rfl, other (by simp [Peer.ownLock, foreign])⟩
      · exact fun type ↦ ⟨Peer.commander_of_sameGraph (sameGraph_setEventExecuted _ _),
          other (by simp [Peer.ownLock, type])⟩
      · exact fun type _ _ ↦ ⟨rfl, other (by simp [Peer.ownLock, type])⟩
    rw [wp_commitEntries_cons]
    refine wp_mono one ?_
    rintro _ t ⟨commander, ht⟩
    refine wp_mono (ih _ t) fun _ u hu ↦ ?_
    obtain ⟨locked, missing⟩ := Prod.mk.inj ht
    rw [hu, locked, missing, Peer.lockRequests_of_commander commander,
      Peer.lockRequests_cons entry entries, fileAll_append]

/-- A leader that commits files the LOCK requests for what it newly commits. -/
theorem memory_updateCommitIndex {s : EnclaveState} {n : Nat} (leads : s.self.role = .leader) :
    wp (updateCommitIndex o n) (fun _ t ↦ t.self.memory = (s.self.lockedEvents,
      fileAll (s.self.lockRequests o (s.self.newly n)) s.self.missingResp)) s := by
  unfold updateCommitIndex
  rw [wp_bind, wp_getSelf, wp_bind, wp_lift]
  intro committed hcommitted
  obtain rfl : committed = s.self.newly n := newlyCommitted_ok hcommitted
  rw [if_neg (by simp [leads]), wp_bind]
  refine wp_mono (memory_commitEntries 0 _ s) fun _ t ht ↦ ?_
  rw [wp_bind, wp_macAndBroadcastMsgs, wp_modifySelf]
  exact ht

/-- A leader that appends an entry files requests when it is alone and the entry is an own LOCK. -/
theorem memory_appendToLog {s : EnclaveState} {entry : Entry} (leads : s.self.role = .leader)
    (settled : s.self.clusterSize = 1 → s.self.log.length = s.self.commitIndex + 1) :
    wp (appendToLog o entry) (fun _ t ↦ t.self.memory = (s.self.lockedEvents,
      if s.self.clusterSize = 1 then fileAll (s.self.lockRequests o [entry]) s.self.missingResp
      else s.self.missingResp)) s := by
  by_cases alone : s.self.clusterSize = 1
  · rw [if_pos alone]
    unfold appendToLog
    rw [wp_bind, wp_modifySelf, wp_bind, wp_getSelf, if_pos alone]
    refine wp_mono (memory_updateCommitIndex leads) fun _ t ht ↦ ?_
    have newly : { s.self with log := s.self.log ++ [entry] }.newly
        ((s.self.log ++ [entry]).length - 1) = [entry] := by
      unfold Peer.newly
      rw [List.take_of_length_le (by simp), ← settled alone, List.drop_left]
    rw [newly] at ht
    exact ht
  · rw [if_neg alone]
    refine wp_mono (appendToLog_of_uncommitted fun h ↦ absurd h alone) ?_
    rintro _ _ ⟨_, _, _, _, -, rfl⟩
    rfl

/-- A call has filed the LOCK requests for what is newly committed, and has not touched what is
acquired. -/
def FilesNewly (o : Oracle) (s t : EnclaveState) : Prop :=
  t.self.memory = (s.self.lockedEvents,
    fileAll (s.self.lockRequests o (s.self.hold.newly t.self.hold)) s.self.missingResp)

private theorem FilesNewly.of_same {s t : EnclaveState} (memory : t.self.memory = s.self.memory)
    (commitIndex : t.self.commitIndex = s.self.commitIndex) : FilesNewly o s t := by
  have none : s.self.hold.newly t.self.hold = [] := Hold.newly_of_eq commitIndex
  unfold FilesNewly
  rw [memory, none]
  rfl

private theorem filesNewly_appendToLog {s : EnclaveState} {entry : Entry}
    (leads : s.self.role = .leader)
    (settled : s.self.clusterSize = 1 → s.self.log.length = s.self.commitIndex + 1) :
    wp (appendToLog o entry) (fun _ t ↦ FilesNewly o s t) s := by
  intro _ t ht
  have memory := memory_appendToLog leads settled _ t ht
  have node := (appendToLog_spec leads _ t ht).2
  have hcommit : t.self.commitIndex =
      if s.self.clusterSize = 1 then s.self.log.length else s.self.commitIndex :=
    congrArg Node.commitIndex node
  by_cases alone : s.self.clusterSize = 1
  · rw [if_pos alone] at hcommit memory
    have hlog : t.self.log = s.self.log ++ [entry] := congrArg Node.log node
    have newly : s.self.hold.newly t.self.hold = [entry] := by
      change (t.self.log.take (t.self.commitIndex + 1)).drop (s.self.commitIndex + 1) = [entry]
      rw [hlog, hcommit, List.take_of_length_le (by simp), ← settled alone, List.drop_left]
    unfold FilesNewly
    rw [newly]
    exact memory
  · rw [if_neg alone] at hcommit memory
    exact .of_same memory hcommit

/-- A command request files LOCK requests for what it commits, as only a lone leader does. -/
theorem memory_recvCommandReq (valid : Bool) (req : CommandReq) {s : EnclaveState}
    (settled : s.self.clusterSize = 1 → s.self.log.length = s.self.commitIndex + 1) :
    wp (recvCommandReq o valid req) (fun _ t ↦ t.self.role = .leader →
      s.self.role = .leader ∧ FilesNewly o s t) s := by
  have stop {t : EnclaveState} (ht : t.self = s.self) :
      t.self.role = .leader → s.self.role = .leader ∧ FilesNewly o s t :=
    fun leads ↦ ⟨ht ▸ leads, .of_same (ht ▸ rfl) (ht ▸ rfl)⟩
  have answer (msg : Message) : wp (macAndSendMsg msg) (fun _ t ↦ t.self.role = .leader →
      s.self.role = .leader ∧ FilesNewly o s t) s := wp_macAndSendMsg.mpr (stop rfl)
  have append (leads : s.self.role = .leader) (tag : CommandTag) (w : DcrWorkflow)
      (graph : SameGraph s.self.workflow w) : wp (appendCommand o req tag)
        (fun _ t ↦ t.self.role = .leader → s.self.role = .leader ∧ FilesNewly o s t)
        { s with self := { s.self with workflow := w } } := by
    unfold appendCommand
    rw [wp_bind, wp_getSelf]
    refine wp_mono (filesNewly_appendToLog leads settled) fun _ t ht _ ↦ ⟨leads, ?_⟩
    have commander : { s.self with workflow := w }.commander o = s.self.commander o :=
      Peer.commander_of_sameGraph graph
    unfold FilesNewly at ht ⊢
    rwa [Peer.lockRequests_of_commander commander] at ht
  unfold recvCommandReq
  rw [wp_bind, wp_getSelf, wp_ite]
  refine ⟨fun _ ↦ wp_pure.mpr (stop rfl), fun _ ↦ ?_⟩
  rw [wp_ite]
  refine ⟨fun _ ↦ wp_pure.mpr (stop rfl), fun _ ↦ ?_⟩
  rw [wp_ite]
  refine ⟨fun _ ↦ answer _, fun leads ↦ ?_⟩
  have leads : s.self.role = .leader := by simpa using leads
  split
  · rw [wp_ite]
    exact ⟨fun _ ↦ answer _, fun _ ↦ wp_pure.mpr (stop rfl)⟩
  · rw [wp_ite]
    refine ⟨fun _ ↦ ?_, fun _ ↦ append leads _ _ (SameGraph.refl _)⟩
    unfold admitLock
    rw [wp_bind, wp_getSelf, wp_bind, wp_lift]
    intro found _
    rw [wp_ite]
    refine ⟨fun _ ↦ answer _, fun _ ↦ ?_⟩
    rw [wp_ite]
    refine ⟨fun _ ↦ ?_, fun _ ↦ append leads _ _ (SameGraph.refl _)⟩
    have graph := (sameReads_isEventEnabled s.self.workflow s.self.clusterEvent).graph
    rw [wp_bind, wp_modifySelf, wp_ite]
    constructor
    · exact fun _ ↦ wp_macAndSendMsg.mpr fun _ ↦ ⟨leads, .of_same rfl rfl⟩
    · intro _
      rw [wp_ite]
      exact ⟨fun _ ↦ append leads _ _ graph, fun _ ↦ append leads _ _ graph⟩

/-- An append response files LOCK requests for what it commits. -/
theorem memory_recvAppendRsp (valid : Bool) (rsp : AppendRsp) (s : EnclaveState) :
    wp (recvAppendRsp o valid rsp) (fun _ t ↦ t.self.role = .leader →
      s.self.role = .leader ∧ FilesNewly o s t) s := by
  unfold recvAppendRsp
  rw [wp_bind]
  refine wp_mono (led_verifyMacAndOwnTerm (f := fun p ↦ p) _ _ _ _ s) fun verified t ht ↦ ?_
  have stop {u : EnclaveState} (hu : u.self.role = .leader → t.self.role = .leader)
      (memory : u.self.memory = t.self.memory)
      (commitIndex : u.self.commitIndex = t.self.commitIndex) :
      u.self.role = .leader → s.self.role = .leader ∧ FilesNewly o s u := by
    intro leads
    obtain ⟨led, same⟩ := ht (hu leads)
    have same : t.self = s.self := same
    rw [same] at memory commitIndex
    exact ⟨led, .of_same memory commitIndex⟩
  have still : wp (pure ⟨⟩ : Ecall Unit) (fun _ u ↦ u.self.role = .leader →
      s.self.role = .leader ∧ FilesNewly o s u) t := wp_pure.mpr (stop id rfl rfl)
  rw [wp_ite]
  refine ⟨fun _ ↦ ?_, fun _ ↦ still⟩
  rw [wp_bind, wp_getSelf, wp_ite]
  refine ⟨fun leads ↦ ?_, fun _ ↦ still⟩
  obtain ⟨led, same⟩ := ht leads
  have same : t.self = s.self := same
  rw [wp_ite]
  constructor
  · intro _
    refine wp_bind_modifySelf fun u hu ↦ ?_
    have kept : wp (pure ⟨⟩ : Ecall Unit) (fun _ v ↦ v.self.role = .leader →
        s.self.role = .leader ∧ FilesNewly o s v) u := by
      rw [hu]
      exact wp_pure.mpr (stop id rfl rfl)
    rw [wp_bind, wp_getSelf, wp_bind, wp_lift]
    intro index _
    rw [wp_bind, wp_lift]
    intro entry _
    rw [wp_ite]
    refine ⟨fun _ ↦ ?_, fun _ ↦ kept⟩
    intro _ v hv _
    have memory := memory_updateCommitIndex (by rw [hu]; exact leads) _ v hv
    obtain ⟨w, executes, -, rfl⟩ := updateCommitIndex_spec o index u _ v hv
    have hlog : w.self.log = u.self.log := congrArg Node.log executes.node
    rw [hu, same] at memory hlog
    have log : (Peer.hold { w.self with commitIndex := index }).log = s.self.log := hlog
    refine ⟨led, ?_⟩
    unfold FilesNewly Hold.newly
    rw [log]
    exact memory
  · intro _
    rw [wp_bind, wp_lift]
    intro prev _
    exact wp_macAndSendMsg.mpr (stop id rfl rfl)

/-- A leader goes on to remember the same, and to commit what it appends when it is alone. -/
def Calm (s t : EnclaveState) : Prop :=
  t.self.role = .leader → s.self.role = .leader ∧
    ((s.self.clusterSize = 1 → s.self.log.length = s.self.commitIndex + 1) →
      t.self.memory = s.self.memory ∧
        (t.self.clusterSize = 1 → t.self.log.length = t.self.commitIndex + 1))

namespace Calm

private theorem of_led {s t : EnclaveState}
    (h : Led (fun p ↦ (p.memory, p.log.length, p.commitIndex, p.clusterSize)) s t) : Calm s t := by
  intro leads
  obtain ⟨led, same⟩ := h leads
  obtain ⟨memory, log, commitIndex, clusterSize⟩ := by simpa only [Prod.mk.injEq] using same
  rw [log, commitIndex, clusterSize]
  exact ⟨led, fun settled ↦ ⟨memory, settled⟩⟩

instance : Std.Refl Calm := ⟨fun _ ↦ of_led (Std.Refl.refl _)⟩

instance : IsTrans EnclaveState Calm := ⟨by
  intro s t u st tu leads
  obtain ⟨leads, after⟩ := tu leads
  obtain ⟨leads, before⟩ := st leads
  refine ⟨leads, fun settled ↦ ?_⟩
  obtain ⟨memory, settled⟩ := before settled
  obtain ⟨memory', settled⟩ := after settled
  exact ⟨memory'.trans memory, settled⟩⟩

end Calm

/-- No requests are filed for a checkpoint. -/
theorem calm_appendToLog {entry : Entry} (type : entry.tag.type = .checkpoint) :
    Along Calm (appendToLog o entry) := by
  intro s _ t ht leads'
  by_cases leads : s.self.role = .leader
  · refine ⟨leads, fun settled ↦ ?_⟩
    have node := (appendToLog_spec leads _ t ht).2
    have none : s.self.lockRequests o [entry] = [] := by
      simp [Peer.lockRequests, Peer.ownLock, type]
    constructor
    · have memory := memory_appendToLog leads settled _ t ht
      rw [none] at memory
      exact memory.trans (by simp [fileAll, Peer.memory])
    · intro alone
      have alone : s.self.clusterSize = 1 :=
        (congrArg Node.clusterSize node).symm.trans alone
      have hlog : t.self.log = s.self.log ++ [entry] := congrArg Node.log node
      have hcommit : t.self.commitIndex =
          if s.self.clusterSize = 1 then s.self.log.length else s.self.commitIndex :=
        congrArg Node.commitIndex node
      rw [if_pos alone] at hcommit
      rw [hlog, hcommit]
      simp
  · exact absurd ((walk_tenure.appendToLog entry s _ t ht).leads leads').1 leads

/-- No timeout makes a leader forget. -/
theorem calm_setTime (ticks : UInt64) : Along Calm (setTime o ticks) := by
  have apart : Apart fun p : Peer ↦ (p.memory, p.log.length, p.commitIndex, p.clusterSize) :=
    ⟨fun _ _ ↦ rfl, fun _ _ ↦ rfl, fun _ _ _ ↦ rfl, fun _ _ ↦ rfl, fun _ _ ↦ rfl⟩
  exact apart.along_setTime (fun _ _ ↦ rfl) (fun _ _ ↦ rfl) (fun _ _ ↦ rfl) Calm.of_led
    calm_appendToLog ticks

private theorem memory_becomeLeader : Along (Same Peer.memory) (becomeLeader o) := by
  have assign {g : Peer → Peer} (h : ∀ p, (g p).memory = p.memory) :
      Along (Same Peer.memory) (modifySelf g) := same_modifySelf _ h
  unfold becomeLeader
  refine Along.bind (assign fun _ ↦ ?_) fun _ ↦ along_getSelf.bind fun self ↦
    (Along.lift _).bind fun found ↦ ?_
  · rfl
  have lead : Along (Same Peer.memory) (do
      modifySelf fun p ↦
        { p with role := .leader, leaderMap := p.leaderMap.insert p.clusterEvent p.id }
      updateTimeout o) :=
    Along.bind (assign (by simp [Peer.memory])) fun _ ↦ apart_memory.updateTimeout
  cases found with
  | some index => exact Along.bind (assign (by simp [Peer.memory])) fun _ ↦ lead
  | none => exact Along.bind (assign (by simp [Peer.memory])) fun _ ↦ lead

/-- The winner of an election has what it had. -/
theorem memory_recvElectionRsp (valid : Bool) (rsp : ElectionRsp) (s : EnclaveState) :
    wp (recvElectionRsp o valid rsp) (fun _ t ↦ Led Peer.memory s t ∨
      s.self.wins rsp = true ∧ Takes s t ∧ t.self.memory = s.self.memory) s := by
  refine wp_mono (led_recvElectionRsp (f := Peer.memory) (fun _ _ ↦ rfl) valid rsp s) ?_
  rintro _ t (led | ⟨elects, ms, elected⟩)
  · exact Or.inl led
  · obtain ⟨found, scanned, hold⟩ := becomeLeader_hold _ _ t elected
    have memory := memory_becomeLeader _ _ t elected
    exact Or.inr ⟨elects, ⟨found, scanned, hold⟩, memory⟩

/-- A LOCK response that counts adds the event of its source to the acquired locks. -/
theorem lockedEvents_recvLockRsp {rsp : CommandRsp} {s : EnclaveState}
    (handles : s.self.Handles true rsp) (type : rsp.tag.type = .lock)
    (incomplete : s.self.completesLocks rsp = false) :
    wp (recvLockRsp o rsp) (fun _ t ↦ t.self.lockedEvents =
      if s.self.countsLock rsp then s.self.lockedEvents.insert (s.self.eventOf rsp.source)
      else s.self.lockedEvents) s := by
  have counts_iff := handles.countsLock_iff type
  unfold recvLockRsp
  rw [wp_bind, wp_getSelf]
  cases found : s.self.existInLog rsp.tag with
  | none =>
    have ignored : s.self.countsLock rsp = false := by
      rw [Bool.eq_false_iff, Ne, counts_iff, found]
      rintro ⟨i, hi, -⟩
      exact nomatch hi
    rw [ignored]
    exact wp_pure.mpr rfl
  | some i =>
    dsimp only
    rw [wp_bind, wp_lift]
    intro resolved hresolved
    have counts : s.self.countsLock rsp = !resolved := by
      rw [Bool.eq_iff_iff, counts_iff, found]
      simp [hresolved]
    rw [counts]
    cases resolved with
    | true =>
      rw [if_pos rfl]
      exact wp_mono (aside_answerResolved rsp i s) fun _ _ h ↦ h.lockedEvents
    | false =>
      rw [if_neg Bool.false_ne_true]
      have missing : { s.self with lockedEvents :=
          s.self.lockedEvents.insert (s.self.eventOf rsp.source) }.locksAquired = false := by
        unfold Peer.completesLocks at incomplete
        rwa [counts] at incomplete
      unfold countLock
      refine wp_bind_of_ok (peerToEventMapAt_eq rsp.source s) (wp_bind_modifySelf fun t ht ↦ ?_)
      have locks : t.self.locksAquired = false := by
        rw [ht]
        exact missing
      rw [wp_bind, wp_getSelf, if_neg (by simp [locks]), wp_pure, ht]
      rfl

/-- What a response adds to the acquired locks, unless it completes them or starts an abort. -/
theorem lockedEvents_recvCommandRsp {rsp : CommandRsp} {s : EnclaveState}
    (incomplete : s.self.completesLocks rsp = false) (idle : ¬ s.self.abortsOn rsp) :
    wp (recvCommandRsp o true rsp) (fun _ t ↦ t.self.lockedEvents =
      if s.self.countsLock rsp then s.self.lockedEvents.insert (s.self.eventOf rsp.source)
      else s.self.lockedEvents) s := by
  have other (h : s.self.Handles true rsp → rsp.tag.type ≠ .lock) :
      s.self.countsLock rsp = false := by
    rw [Bool.eq_false_iff, Ne, Peer.countsLock_iff]
    rintro ⟨target, leads, granted, type, -⟩
    exact h ⟨rfl, target, leads, granted⟩ type
  unfold wp
  by_cases handles : s.self.Handles true rsp
  · let t : EnclaveState := { s with self := { s.self with missingResp := s.self.cleared rsp } }
    rw [recvCommandRsp_of_handles handles]
    cases type : rsp.tag.type with
    | exec =>
      rw [other (by simp [type])]
      exact wp_modifySelf.mpr rfl
    | checkpoint =>
      rw [other (by simp [type])]
      exact wp_pure.mpr rfl
    | abort =>
      rw [other (by simp [type])]
      have idle : t.self.startsAbort rsp.source = false := by
        rw [Bool.eq_false_iff]
        exact fun starts ↦ idle ⟨handles, type, starts⟩
      refine wp_mono (recvAbortRsp_of_not_starts idle) ?_
      rintro _ _ ⟨⟨leaders, rfl⟩, -⟩
      rfl
    | lock =>
      have handles : t.self.Handles true rsp := handles
      exact lockedEvents_recvLockRsp handles type incomplete
  · rw [other fun h ↦ absurd h handles]
    by_cases redirects : s.self.Redirects true rsp
    · rw [recvCommandRsp_of_redirects redirects]
      exact fun _ t ht ↦ (aside_recvRedirect rsp s _ t ht).lockedEvents
    · rw [recvCommandRsp_of_ignores handles redirects]
      rintro _ _ ⟨⟩
      rfl

/-! ### What a step may do -/

namespace Peer

variable {p q : Peer}

/-- With the requests filed, the lock is acquired, or asked for where none was filed, or by the last
one filed for a peer of the event. -/
def RememberedWith (p : Peer) (reqs : List CommandReq) (uid event : Uid) : Prop :=
  event ∈ p.lockedEvents ∨ p.AsksBeside (reqs.map CommandReq.target) uid event ∨
    ∃ req ∈ reqs, req.tag = ⟨uid, .lock⟩ ∧ p.peerToEventMap[req.target]? = some event ∧
      (reqs.filter fun r ↦ r.target == req.target).getLast? = some req

instance (p : Peer) (reqs : List CommandReq) (uid event : Uid) :
    Decidable (p.RememberedWith reqs uid event) := by
  unfold RememberedWith
  infer_instance

/-- With the entries up to `n` of the log committed and the requests for their LOCKs filed, each lock
of an open attempt is remembered. -/
def RemembersAt (p : Peer) (o : Oracle) (log : List Entry) (n : Nat) : Prop :=
  { p with log := log, commitIndex := n }.EveryLock
    (p.RememberedWith (p.lockRequests o ((log.take (n + 1)).drop (p.commitIndex + 1))))

instance (p : Peer) (o : Oracle) (log : List Entry) (n : Nat) :
    Decidable (p.RemembersAt o log n) := by
  unfold RemembersAt
  infer_instance

/-- What is remembered with the requests is remembered when they are filed. -/
theorem RememberedWith.of_fileAll {reqs : List CommandReq} {uid event : Uid}
    (h : p.RememberedWith reqs uid event)
    (mapped : ∀ {k v : Uid}, p.peerToEventMap[k]? = some v → q.peerToEventMap[k]? = some v)
    (locked : q.lockedEvents = p.lockedEvents)
    (missing : q.missingResp = fileAll reqs p.missingResp) : q.Remembered uid event := by
  rcases h with acquired | beside | ⟨req, hreq, tag, known, last⟩
  · exact Or.inl (locked ▸ acquired)
  · obtain ⟨peer, other, asks⟩ := asksBeside_iff.mp beside
    refine Or.inr ⟨peer, asks.of_eq mapped ?_⟩
    have none : reqs.filter (fun req ↦ req.target == peer) = [] := by
      rw [List.filter_eq_nil_iff]
      intro req hreq same
      exact other (List.mem_map.mpr ⟨req, hreq, by simpa using same⟩)
    rw [missing, getElem?_fileAll_last, none]
    rfl
  · refine Or.inr ⟨req.target, mapped known, req, ?_, tag⟩
    rw [missing, getElem?_fileAll_last, last]
    rfl

/-- A leader that commits remembers its attempts where the condition holds. -/
theorem RemembersAt.remembers (h : p.RemembersAt o q.log q.commitIndex)
    (inside : q.commitIndex < q.log.length) (clusterEvent : q.clusterEvent = p.clusterEvent)
    (workflow : SameGraph p.workflow q.workflow)
    (mapped : ∀ {k v : Uid}, p.peerToEventMap[k]? = some v → q.peerToEventMap[k]? = some v)
    (memory : q.memory = (p.lockedEvents, fileAll (p.lockRequests o
      ((q.log.take (q.commitIndex + 1)).drop (p.commitIndex + 1))) p.missingResp)) :
    q.Remembers := by
  obtain ⟨locked, missing⟩ := Prod.mk.inj memory
  have none : (q.log.take (q.commitIndex + 1)).drop (q.commitIndex + 1) = [] :=
    List.drop_eq_nil_of_le (List.length_take_le _ _)
  have continues : { p with log := q.log, commitIndex := q.commitIndex }.Continues q :=
    ⟨inside, clusterEvent, workflow, mapped, List.prefix_rfl, by simp [none]⟩
  exact (continues.everyLock h).mono fun uid event ⟨remembered, _⟩ ↦
    remembered.of_fileAll mapped locked missing

/-- Where a response moves or removes a request, or files one over it, each lock of an open attempt
is acquired or asked for elsewhere. Completing the locks ends their attempt and an abort the one
whose identifier the unset entry has, and both forget what is acquired. -/
structure SparesLocks (p : Peer) (o : Oracle) (rsp : CommandRsp) : Prop where
  redirect : p.Redirects true rsp → ∀ req ∈ p.missingResp[rsp.source]?,
    p.EveryLock fun uid event ↦ event ∈ p.lockedEvents ∨
      p.AsksBeside [rsp.source, rsp.leader] uid event ∨
      req.tag = ⟨uid, .lock⟩ ∧ p.peerToEventMap[rsp.leader]? = some event
  exec : p.Handles true rsp → rsp.tag.type = .exec → p.EveryLock fun uid event ↦
    event ∈ p.lockedEvents ∨ p.AsksBeside [rsp.source] uid event
  ignored : p.Handles true rsp → rsp.tag.type = .lock → p.countsLock rsp = false →
    p.EveryLock fun uid event ↦ event ∈ p.lockedEvents ∨ p.AsksBeside [rsp.source] uid event ∨
      p.answersResolved rsp = false ∧ uid ≠ rsp.tag.uid ∧ p.Asks uid event rsp.source
  complete : p.completesLocks rsp = true → p.EveryLock fun uid event ↦ uid = rsp.tag.uid ∨
    p.AsksBeside ((p.files o rsp).map CommandReq.target) uid event
  abort : p.abortsOn rsp → p.EveryLock fun uid event ↦ uid = o.junkEntry.tag.uid ∨
    p.AsksBeside ((p.files o rsp).map CommandReq.target) uid event

set_option synthInstance.maxSize 400 in
instance (p : Peer) (o : Oracle) (rsp : CommandRsp) : Decidable (p.SparesLocks o rsp) :=
  decidable_of_iff (_ ∧ _ ∧ _ ∧ _ ∧ _)
    ⟨fun ⟨h₁, h₂, h₃, h₄, h₅⟩ ↦ ⟨h₁, h₂, h₃, h₄, h₅⟩,
      fun h ↦ ⟨h.redirect, h.exec, h.ignored, h.complete, h.abort⟩⟩

end Peer

end TrustedDcr.Enclave
