import TrustedDcr.Enclave.Moves

/-!
# Elections and replication as moves

Every call that carries a term, and every clock tick, is a sequence of moves.
-/

namespace TrustedDcr.Enclave
open TrustedDcr.Msg TrustedDcr.Dcr TrustedDcr.Theory

variable {rcv : Option Message} {o : Oracle} {p : Peer}

/-! ### Verification -/

/-- A verified message is addressed to the peer and of no later term than the peer then has; the
peer is as before, or a follower that has just taken over the message's term. -/
theorem verifyMacAndOwnTerm_spec {m : Message} {l : Letter} (received : rcv = some m)
    (letter : m.letter = some l) (valid : Bool) (s : EnclaveState) :
    wp (verifyMacAndOwnTerm valid l.target l.source l.term) (fun verified t ↦ Goes rcv o p s t ∧
      (verified = true → l.target = t.self.id ∧ l.term ≤ t.self.term ∧
        (t = s ∨ t.self.role = .follower ∧ t.self.log = s.self.log ∧ t.self.term = l.term ∧
          s.self.term < l.term))) s := by
  unfold verifyMacAndOwnTerm
  rw [wp_ite]
  refine ⟨fun _ ↦ wp_pure.mpr ⟨Goes.refl s, fun h ↦ nomatch h⟩, fun _ ↦ ?_⟩
  rw [wp_bind, wp_getSelf, wp_ite]
  refine ⟨fun _ ↦ wp_pure.mpr ⟨Goes.refl s, fun h ↦ nomatch h⟩, fun htarget ↦ ?_⟩
  have ha : l.target = s.self.id := by simpa using htarget
  rw [wp_ite]
  constructor
  · intro hterm
    rw [wp_bind, wp_modifySelf, wp_pure]
    refine ⟨?_, fun _ ↦ ⟨ha, Nat.le_refl _, Or.inr ⟨rfl, rfl, rfl, hterm⟩⟩⟩
    exact Goes.of_still (.bump received letter ha hterm) rfl rfl rfl rfl rfl
  · intro hterm
    exact wp_pure.mpr ⟨Goes.refl s, fun _ ↦ ⟨ha, Nat.not_lt.mp hterm, Or.inl rfl⟩⟩

/-- A message of an old term is refused. -/
theorem verifyMsgTerm_spec (term : Nat) (rsp : Message) (s : EnclaveState) :
    wp (verifyMsgTerm term rsp) (fun verified t ↦
      verified = true ∧ t = s ∧ s.self.term ≤ term ∨
        verified = false ∧ t = { s with sent := s.sent ++ [rsp] }) s := by
  unfold verifyMsgTerm
  rw [wp_bind, wp_getSelf, wp_ite]
  constructor
  · intro _
    rw [wp_bind, wp_macAndSendMsg, wp_pure]
    exact Or.inr ⟨rfl, rfl⟩
  · intro hterm
    exact wp_pure.mpr (Or.inl ⟨rfl, rfl, Nat.not_lt.mp hterm⟩)

section
variable {s : EnclaveState}

/-- An addressed message of no later term is verified. -/
theorem verifyMacAndOwnTerm_of_le {target : Uid} (source : Uid) {term : Nat}
    (addressed : target = s.self.id) (le : term ≤ s.self.term) :
    verifyMacAndOwnTerm true target source term s = .ok (true, s) := by
  unfold verifyMacAndOwnTerm
  rw [if_neg (by decide), getSelf_bind, if_neg (by simp [addressed]), if_neg (by omega)]
  rfl

/-- A message of an earlier term is refused. -/
theorem verifyMsgTerm_of_lt {term : Nat} (rsp : Message) (stale : term < s.self.term) :
    verifyMsgTerm term rsp s = .ok (false, { s with sent := s.sent ++ [rsp] }) := by
  unfold verifyMsgTerm
  rw [getSelf_bind, if_pos stale]
  rfl

/-- A message of no earlier term is not. -/
theorem verifyMsgTerm_of_le {term : Nat} (rsp : Message) (current : s.self.term ≤ term) :
    verifyMsgTerm term rsp s = .ok (true, s) := by
  unfold verifyMsgTerm
  rw [getSelf_bind, if_neg (by omega)]
  rfl

end

/-! ### Append requests -/

/-- `term_and_index_exist_in_log` finds an entry of that term at that index. -/
theorem exists_of_termAndIndexExistInLog {q : Peer} {term index : Nat}
    (h : q.termAndIndexExistInLog term index = true) :
    ∃ prev, q.log[index]? = some prev ∧ prev.term = term := by
  unfold Peer.termAndIndexExistInLog at h
  split at h
  · next e he => exact ⟨e, he, by simpa using h⟩
  · exact nomatch h

/-- A follower that has checked the previous entry takes over the entries in one move and confirms
them. -/
theorem acceptEntries_spec {q : Peer} {req : AppendReq} {prev : Entry} {u : EnclaveState}
    (addressed : req.target = u.self.id) (term : req.term = u.self.term)
    (follows : u.self.role = .follower) (opens : q.term < req.term ∨ q.role = .follower)
    (log : u.self.log = q.log) (hprev : u.self.log[req.prevIndex]? = some prev)
    (hterm : prev.term = req.prevTerm) :
    wp (acceptEntries o req) (fun _ t ↦ Goes (some (.appendReq req)) o q u t ∧
      t.self.node = u.self.node.accept req ∧ t.sent = u.sent ++ [.appendRsp ⟨req.source, u.self.id,
        u.self.term, req.prevTerm, req.prevIndex, true, t.self.log.length - 1⟩]) u := by
  unfold acceptEntries
  refine wp_bind_modifySelf fun u₁ h₁ ↦ wp_bind_modifySelf fun u₂ h₂ ↦ ?_
  have hnode : u₂.self.node =
      { u.self.node with log := u.self.log.take (req.prevIndex + 1) ++ req.entries } := by
    rw [h₂, h₁]
    rfl
  have hsent : u₂.sent = u.sent ∧ u₂.drawn = u.drawn := by
    rw [h₂, h₁]
    exact ⟨rfl, rfl⟩
  have hwork : u₂.self.workflow = u.self.workflow := by
    rw [h₂, h₁]
    rfl
  have hlocked : Locked (some (.appendReq req)) q u u₂ := by
    rw [h₂, h₁]
    exact Locked.of_eq rfl rfl rfl rfl
  clear h₁ h₂
  rw [wp_bind, wp_getSelf]
  have hcommit : u₂.self.commitIndex = u.self.commitIndex := congrArg Node.commitIndex hnode
  have hlog : u₂.self.log = u.self.log.take (req.prevIndex + 1) ++ req.entries :=
    congrArg Node.log hnode
  have haccept : u.self.node.accept req = { u₂.self.node with
      commitIndex :=
        if req.commitIndex > u₂.self.commitIndex then min req.commitIndex (u₂.self.log.length - 1)
        else u₂.self.commitIndex } := by
    rw [hlog, hcommit, hnode]
    rfl
  refine wp_when (fun v ↦ v.self.node = u.self.node.accept req ∧ v.sent = u.sent ∧
    v.drawn = u.drawn ∧ Locked (some (.appendReq req)) q u v ∧
    Replays u.self.node v.self.node u.self.workflow v.self.workflow) ?_ ?_ ?_
  · intro hforward
    refine wp_mono (updateCommitIndex_spec o _ _) ?_
    rintro _ v ⟨w, hw, hquiet, rfl⟩
    have hrole : u₂.self.role = .follower := (congrArg Node.role hnode).trans follows
    obtain ⟨hs, hd⟩ := hquiet (by simp [hrole])
    refine ⟨?_, hs.trans hsent.1, hd.trans hsent.2, hlocked.trans (hw.locked.trans ?_), ?_⟩
    · rw [haccept, if_pos hforward, ← hw.node]
      rfl
    · exact Locked.of_eq rfl rfl rfl rfl
    · have hreads := hw.workflow
      rw [hwork, hcommit] at hreads
      unfold Replays Peer.node
      dsimp only
      rwa [show w.self.log = u₂.self.log from congrArg Node.log hw.node]
  · intro hback
    refine ⟨?_, hsent.1, hsent.2, hlocked, .still hcommit (hwork ▸ DcrWorkflow.SameReads.refl _)⟩
    rw [haccept, if_neg hback]
    rfl
  · rintro v ⟨hv, hs, hd, hl, hreplays⟩
    have hlast : v.self.log = u₂.self.log :=
      (congrArg Node.log hv).trans hlog.symm
    have hid : u₂.self.id = u.self.id := congrArg Node.id hnode
    have hterm' : u₂.self.term = u.self.term := congrArg Node.term hnode
    rw [wp_macAndSendMsg]
    refine ⟨Goes.of_move ?_ hreplays (hl.trans (Locked.of_eq rfl rfl rfl rfl)), hv, ?_⟩
    · have hmove := Move.accept (o := o) (p := q) (v := u.view) rfl addressed term follows opens log
        hprev hterm
      unfold EnclaveState.view at hmove ⊢
      rw [hv, hs, hd, hlog, hid, hterm']
      exact hmove
    · rw [hs, hid, hterm', hlast]

/-- `recv_append_req` is a sequence of moves. -/
theorem goes_recvAppendReq (valid : Bool) (req : AppendReq) (s : EnclaveState) :
    wp (recvAppendReq o valid req)
      (fun _ t ↦ Goes (some (.appendReq req)) o s.self s t) s := by
  unfold recvAppendReq
  rw [wp_bind]
  refine wp_mono (verifyMacAndOwnTerm_spec (o := o) (p := s.self) (m := .appendReq req)
    (l := ⟨req.source, req.target, req.term⟩) rfl rfl valid s) fun verified t ⟨hst, hv⟩ ↦ ?_
  rw [wp_ite]
  refine ⟨fun hver ↦ ?_, fun _ ↦ wp_pure.mpr hst⟩
  obtain ⟨ha, hle, hs⟩ := hv hver
  have hlog : t.self.log = s.self.log := by
    rcases hs with rfl | ⟨-, hl, -⟩
    · rfl
    · exact hl
  rw [wp_bind, wp_getSelf, wp_bind]
  refine wp_mono (verifyMsgTerm_spec _ _ t) fun verified u hu ↦ ?_
  rcases hu with ⟨rfl, rfl, hterm⟩ | ⟨rfl, rfl⟩
  · rename' u => t
    rw [wp_ite]
    refine ⟨fun _ ↦ ?_, fun h ↦ absurd rfl h⟩
    rw [wp_ite]
    refine ⟨fun hfollows ↦ ?_, fun _ ↦ wp_pure.mpr hst⟩
    refine wp_when (Aside t) (fun _ ↦ aside_updateTimeout o t) (fun _ ↦ Aside.refl t) fun u hu ↦ ?_
    have hlog' : u.self.log = t.self.log := congrArg Node.log hu.node
    rw [wp_ite]
    constructor
    · intro hmissing
      rw [wp_macAndSendMsg]
      refine hst.trans (hu.goes.trans (Goes.say_one (Says.appendRsp ?_ ?_)))
      · rw [hu.node]
        exact ⟨rfl, rfl, Or.inr ⟨_, _, rfl, rfl, ha, rfl⟩⟩
      · rw [hu.node]
        refine ⟨rfl, _, rfl, Or.inr ⟨rfl, rfl, Nat.le_antisymm hle hterm, fun prev hprev hpt ↦ ?_⟩⟩
        have hexists : t.self.termAndIndexExistInLog req.prevTerm req.prevIndex = true := by
          unfold Peer.termAndIndexExistInLog
          rw [show t.self.log[req.prevIndex]? = some prev from hprev]
          simp [hpt]
        simp [hexists] at hmissing
    · intro hexists
      obtain ⟨prev, hprev, hpt⟩ := exists_of_termAndIndexExistInLog (by simpa using hexists)
      refine wp_mono (acceptEntries_spec ?_ ?_ ?_ ?_ (hlog'.trans hlog) (hlog' ▸ hprev) hpt)
        fun _ _ h ↦ hst.trans (hu.goes.trans h.1)
      · exact ha.trans (congrArg Node.id hu.node).symm
      · exact (Nat.le_antisymm hle hterm).trans (congrArg Node.term hu.node).symm
      · exact (congrArg Node.role hu.node).trans hfollows
      · rcases hs with rfl | ⟨-, -, -, hlt⟩
        · exact Or.inr hfollows
        · exact Or.inl hlt
  · rw [wp_ite]
    refine ⟨fun h ↦ Bool.noConfusion h, fun _ ↦ wp_pure.mpr (hst.trans (Goes.say_one ?_))⟩
    exact Says.appendRsp ⟨rfl, rfl, Or.inr ⟨_, _, rfl, rfl, ha, rfl⟩⟩ ⟨rfl, _, rfl, Or.inl rfl⟩

/-! ### The leader's log -/

/-- The members a loop over the cluster sends to are all but the peer itself. -/
theorem mem_otherMembers {q : Peer} {member : Uid} :
    member ∈ otherMembers q ↔ member ∈ q.clusterMembers ∧ member ≠ q.id := by
  simp [otherMembers, Bool.eq_false_iff]

private theorem lastEntry_ok {q : Peer} {e : Entry} (h : q.lastEntry = .ok e) :
    q.log.getLast? = some e := by
  unfold Peer.lastEntry at h
  split at h
  · next e' he =>
    cases h
    exact he
  · exact nomatch h

/-- What a signed index reads is the entry there. -/
theorem entryAtInt_ok {q : Peer} {i : Int} {e : Entry} (h : q.entryAtInt i = .ok e) :
    0 ≤ i ∧ q.log[i.toNat]? = some e := by
  unfold Peer.entryAtInt at h
  split at h
  · exact nomatch h
  · next hi => exact ⟨Int.not_lt.mp hi, entryAt_ok h⟩

/-- A leader sends its last entry to every other member. -/
theorem goes_broadcastLast {s : EnclaveState} (leads : s.self.role = .leader) :
    wp broadcastLast (fun _ t ↦ Goes rcv o p s t ∧ t.self = s.self) s := by
  unfold broadcastLast
  rw [wp_bind, wp_getSelf, wp_ite]
  refine ⟨fun _ ↦ ?_, fun _ ↦ wp_pure.mpr ⟨Goes.refl s, rfl⟩⟩
  rw [wp_bind, wp_lift]
  intro prev hprev
  rw [wp_bind, wp_lift]
  intro last hlast
  rw [wp_macAndBroadcastMsgs]
  refine ⟨Goes.say fun m hm ↦ ?_, rfl⟩
  obtain ⟨member, hmember, rfl⟩ := List.mem_map.mp hm
  obtain ⟨hpos, hprev⟩ := entryAtInt_ok hprev
  refine Says.appendReq ⟨rfl, rfl, Or.inl (mem_otherMembers.mp hmember)⟩
    ⟨leads, rfl, _, prev, hprev, rfl, rfl, ?_⟩
  obtain ⟨below, hlog⟩ := List.getLast?_eq_some_iff.mp (lastEntry_ok hlast)
  change [last] = s.self.log.drop (((s.self.log.length : Int) - 2).toNat + 1)
  rw [show ((s.self.log.length : Int) - 2).toNat + 1 = s.self.log.length - 1 by omega, hlog]
  simp

/-- A leader appends an entry and sends it, or commits it when it is alone. -/
theorem goes_appendToLog {s : EnclaveState} {e : Entry} (leads : s.self.role = .leader)
    (log : s.self.log = p.log) (term : s.self.term = p.term) (origin : Origin rcv o p s.drawn e) :
    wp (appendToLog o e) (fun _ t ↦ Goes rcv o p s t ∧ t.self.term = s.self.term ∧
      t.self.role = .leader) s := by
  unfold appendToLog
  refine wp_bind_modifySelf fun u hu ↦ ?_
  have hsu : Goes rcv o p s u := by
    rw [hu]
    exact Goes.of_still (.append leads log term origin) rfl rfl rfl rfl rfl
  have hrole : u.self.role = .leader := hu ▸ leads
  have hterm : u.self.term = s.self.term := by rw [hu]
  have hne : u.self.log ≠ [] := by
    rw [hu]
    exact List.append_ne_nil_of_right_ne_nil _ (List.cons_ne_nil _ _)
  clear hu
  rw [wp_bind, wp_getSelf, wp_ite]
  constructor
  · intro halone
    refine wp_mono (updateCommitIndex_spec o _ u) ?_
    rintro _ t ⟨w, hw, -, rfl⟩
    have hn := hw.node
    refine ⟨hsu.trans (Goes.of_commit hw ?_), (congrArg Node.term hn).trans hterm,
      (congrArg Node.role hn).trans hrole⟩
    have hmove := @Move.commitAlone rcv o p w.view
      ((congrArg Node.role hn).trans hrole) ((congrArg Node.clusterSize hn).trans halone)
      (fun h ↦ hne ((congrArg Node.log hn).symm.trans h))
    rw [show w.view.node.log = u.self.log from congrArg Node.log hn] at hmove
    exact hmove
  · intro _
    rw [wp_bind]
    refine wp_mono (Q := fun _ t ↦ Goes rcv o p u t ∧ t.self = u.self) (goes_broadcastLast hrole) ?_
    rintro _ t ⟨hut, ht⟩
    refine wp_mono (aside_updateTimeout o t) fun _ v htv ↦ ?_
    refine ⟨hsu.trans (hut.trans htv.goes), ?_, ?_⟩
    · rw [← hterm, ← ht]
      exact congrArg Node.term htv.node
    · rw [← hrole, ← ht]
      exact congrArg Node.role htv.node

/-- The log grows by the entry, which a leader that is alone commits. -/
theorem appendToLog_spec {s : EnclaveState} {e : Entry} (leads : s.self.role = .leader) :
    wp (appendToLog o e) (fun _ t ↦ s.sent <+: t.sent ∧ t.self.node = { s.self.node with
      log := s.self.log ++ [e]
      commitIndex :=
        if s.self.clusterSize = 1 then s.self.log.length else s.self.commitIndex }) s := by
  unfold appendToLog
  refine wp_bind_modifySelf fun u hu ↦ ?_
  have hsent : u.sent = s.sent := by rw [hu]
  have hnode : u.self.node = { s.self.node with log := s.self.log ++ [e] } := by
    rw [hu]
    rfl
  have hrole : u.self.role = .leader := (congrArg Node.role hnode).trans leads
  have hlog : u.self.log = s.self.log ++ [e] := congrArg Node.log hnode
  clear hu
  rw [wp_bind, wp_getSelf, show u.self.clusterSize = s.self.clusterSize from
    congrArg Node.clusterSize hnode, wp_ite]
  constructor
  · intro halone
    refine wp_mono (updateCommitIndex_spec o _ u) ?_
    rintro _ _ ⟨v, hv, -, rfl⟩
    constructor
    · rw [← hsent]
      exact hv.sent_isPrefix
    · change { v.self.node with commitIndex := u.self.log.length - 1 } = _
      rw [hv.node, hnode, if_pos halone, hlog, List.length_append, List.length_singleton,
        Nat.add_sub_cancel]
  · intro hmany
    rw [wp_bind]
    refine wp_mono (Q := fun _ t ↦ Goes none o u.self u t ∧ t.self = u.self)
      (goes_broadcastLast hrole) ?_
    rintro _ t ⟨hut, ht⟩
    refine wp_mono (aside_updateTimeout o t) fun _ v hv ↦ ⟨?_, ?_⟩
    · rw [← hsent]
      exact (sent_of_moves hut.moves).trans hv.sent_isPrefix
    · rw [hv.node, ht, hnode, if_neg hmany]
      rfl

/-- A leader sends heartbeats; so does a candidate that is about to lead. -/
theorem heartbeat_spec (s : EnclaveState) :
    wp heartbeat (fun _ t ↦ ∃ ms, t = { s with sent := s.sent ++ ms } ∧ ∀ n : Node,
      n = { s.self.node with role := .leader } → ∀ m ∈ ms, Says rcv n m) s := by
  unfold heartbeat
  rw [wp_bind, wp_getSelf, wp_ite]
  refine ⟨fun _ ↦ ?_, fun _ ↦ wp_pure.mpr ⟨[], by rw [List.append_nil], fun _ _ _ hm ↦ nomatch hm⟩⟩
  rw [wp_bind, wp_lift]
  intro last hlast
  rw [wp_macAndBroadcastMsgs]
  refine ⟨_, rfl, ?_⟩
  rintro n rfl m hm
  obtain ⟨member, hmember, rfl⟩ := List.mem_map.mp hm
  have hlast := lastEntry_ok hlast
  rw [List.getLast?_eq_getElem?] at hlast
  refine Says.appendReq ⟨rfl, rfl, Or.inl (mem_otherMembers.mp hmember)⟩
    ⟨rfl, rfl, _, last, hlast, rfl, rfl, ?_⟩
  exact (List.drop_of_length_le (show s.self.log.length ≤ s.self.log.length - 1 + 1 by omega)).symm

/-- A leader's heartbeat. -/
theorem goes_heartbeat {s : EnclaveState} (leads : s.self.role = .leader) :
    wp heartbeat (fun _ t ↦ Goes rcv o p s t ∧ t.self = s.self ∧ t.drawn = s.drawn) s := by
  refine wp_mono (@heartbeat_spec rcv s) ?_
  rintro _ t ⟨ms, rfl, hms⟩
  refine ⟨Goes.say (hms _ ?_), rfl, rfl⟩
  rw [← leads]
  rfl

/-- Retrying sends commands again, and may append a checkpoint. -/
theorem goes_retryRequests {s : EnclaveState} (received : rcv = none)
    (leads : s.self.role = .leader) (log : s.self.log = p.log) (term : s.self.term = p.term)
    (clusterEvent : s.self.clusterEvent = p.clusterEvent) (id : s.self.id = p.id) :
    wp (retryRequests o) (fun _ t ↦ Goes rcv o p s t ∧ t.self.term = s.self.term ∧
      t.self.role = .leader) s := by
  unfold retryRequests
  rw [wp_bind, wp_getSelf]
  refine wp_bind_along (Along.forM fun r _ ↦ aside_retryRequest o r.1 r.2) fun _ t ht ↦ ?_
  refine wp_bind_along (aside_modifySelf (by simp [Peer.node])) fun _ u hu ↦ ?_
  have hsu := ht.trans hu
  have hrole : u.self.role = .leader := (congrArg Node.role hsu.node).trans leads
  have hterm : u.self.term = s.self.term := congrArg Node.term hsu.node
  have stop : Goes rcv o p s u ∧ u.self.term = s.self.term ∧ u.self.role = .leader :=
    ⟨hsu.goes, hterm, hrole⟩
  rw [wp_bind, wp_getSelf, wp_ite]
  refine ⟨fun _ ↦ ?_, fun _ ↦ wp_pure.mpr stop⟩
  rw [wp_bind, wp_lift]
  intro _ _
  rw [wp_ite]
  refine ⟨fun _ ↦ ?_, fun _ ↦ wp_pure.mpr stop⟩
  rw [wp_ite]
  refine ⟨fun _ ↦ ?_, fun _ ↦ wp_pure.mpr stop⟩
  unfold generateRandomUid
  rw [wp_bind, wp_bind, wp_modify, wp_pure, wp_bind]
  have hv : Aside s { u with drawn := u.drawn ++ [o.uid] } :=
    hsu.trans { Aside.refl u with drawn := ⟨[o.uid], rfl⟩ }
  have horigin : Origin rcv o p (u.drawn ++ [o.uid]) ⟨u.self.log.length, u.self.term,
      u.self.clusterEvent, u.self.id, ⟨o.uid, .checkpoint⟩⟩ := by
    rw [show u.self.log = p.log from (congrArg Node.log hsu.node).trans log,
      show u.self.term = p.term from hterm.trans term,
      show u.self.clusterEvent = p.clusterEvent from hsu.clusterEvent.trans clusterEvent,
      show u.self.id = p.id from (congrArg Node.id hsu.node).trans id]
    exact .checkpoint received (by simp)
  refine wp_mono (Q := fun _ t ↦ Goes rcv o p { u with drawn := u.drawn ++ [o.uid] } t ∧
    t.self.term = u.self.term ∧ t.self.role = .leader) (goes_appendToLog hrole
      ((congrArg Node.log hsu.node).trans log) (hterm.trans term) horigin) ?_
  rintro _ v ⟨huv, hvt, hvr⟩
  refine wp_mono (aside_modifySelf (by simp [Peer.node]) v)
    fun _ w hw ↦ ⟨hv.goes.trans (huv.trans hw.goes), ?_, ?_⟩
  · exact (congrArg Node.term hw.node).trans (hvt.trans hterm)
  · exact (congrArg Node.role hw.node).trans hvr

/-! ### Time -/

/-- A peer that was of this term or received it stands for the next. -/
theorem goes_startElection {s : EnclaveState} (waits : s.self.role ≠ .leader)
    (known : s.self.term = p.term ∨
      ∃ m l, rcv = some m ∧ m.letter = some l ∧ s.self.term = l.term) :
    wp (startElection o) (fun _ t ↦ Goes rcv o p s t ∧ t.self.role = .candidate) s := by
  unfold startElection
  refine wp_bind_along (aside_updateTimeout o) fun _ t ht ↦ ?_
  refine wp_bind_modifySelf fun u₁ h₁ ↦ wp_bind_modifySelf fun u hu ↦ ?_
  have hterm : t.self.term = s.self.term := congrArg Node.term ht.node
  have htu : Goes rcv o p t u := by
    rw [hu, h₁]
    refine Goes.of_still (.stand ?_ ?_) rfl rfl rfl rfl rfl
    · rwa [show t.view.node.role = s.self.role from congrArg Node.role ht.node]
    · rwa [show t.view.node.term = s.self.term from hterm]
  have hrole : u.self.role = .candidate := by rw [hu]
  clear hu h₁
  rw [wp_bind, wp_getSelf, wp_bind, wp_lift]
  intro last hlast
  rw [wp_macAndBroadcastMsgs]
  refine ⟨ht.goes.trans (htu.trans (Goes.say fun m hm ↦ ?_)), hrole⟩
  obtain ⟨member, hmember, rfl⟩ := List.mem_map.mp hm
  exact Says.electionReq ⟨rfl, rfl, Or.inl (mem_otherMembers.mp hmember)⟩
    ⟨hrole, last, lastEntry_ok hlast, rfl, rfl⟩

/-- A follower asks for pre-votes. -/
theorem goes_startPoll (s : EnclaveState) : wp startPoll (fun _ t ↦ Goes rcv o p s t) s := by
  unfold startPoll
  rw [wp_bind, wp_getSelf, wp_ite]
  refine ⟨fun _ ↦ ?_, fun _ ↦ wp_pure.mpr (Goes.refl s)⟩
  rw [wp_bind, wp_lift]
  intro last _
  rw [wp_macAndBroadcastMsgs]
  refine Goes.say fun m hm ↦ ?_
  obtain ⟨member, hmember, rfl⟩ := List.mem_map.mp hm
  exact Says.pollReq ⟨rfl, rfl, Or.inl (mem_otherMembers.mp hmember)⟩

/-- `set_time` is a sequence of moves. -/
theorem goes_setTime (ticks : UInt64) (s : EnclaveState) :
    wp (setTime o ticks) (fun _ t ↦ Goes none o s.self s t) s := by
  unfold setTime
  rw [wp_bind, wp_getSelf]
  refine wp_bind_along (aside_modifySelf (by simp [Peer.node])) fun _ t ht ↦ ?_
  rw [wp_bind, wp_getSelf, wp_ite]
  refine ⟨fun _ ↦ ?_, fun _ ↦ wp_pure.mpr ht.goes⟩
  unfold timeout
  rw [wp_bind, wp_getSelf]
  have hterm : t.self.term = s.self.term := congrArg Node.term ht.node
  refine wp_when (fun u ↦ Goes none o s.self s u ∧ u.self.term = s.self.term) ?_
    (fun _ ↦ ⟨ht.goes, hterm⟩) ?_
  · intro hleads
    unfold leaderTimeout
    rw [wp_bind]
    refine wp_mono (Q := fun _ u ↦ Goes none o s.self t u ∧ u.self = t.self ∧ u.drawn = t.drawn)
      (goes_heartbeat hleads) ?_
    rintro _ u ⟨htu, hself, -⟩
    rw [wp_bind]
    refine wp_mono (Q := fun _ v ↦ Goes none o s.self u v ∧ v.self.term = u.self.term ∧
      v.self.role = .leader) (goes_retryRequests rfl ?_ ?_ ?_ ?_ ?_) ?_
    · rw [hself, hleads]
    · rw [hself]
      exact congrArg Node.log ht.node
    · rw [hself, hterm]
    · rw [hself]
      exact ht.clusterEvent
    · rw [hself]
      exact congrArg Node.id ht.node
    · rintro _ v ⟨huv, hvt, -⟩
      refine wp_mono (aside_updateTimeout o v) fun _ w hw ↦
        ⟨ht.goes.trans (htu.trans (huv.trans hw.goes)), ?_⟩
      rw [← hterm, ← hself, ← hvt]
      exact congrArg Node.term hw.node
  · rintro u ⟨hsu, hu⟩
    rw [wp_bind, wp_getSelf]
    refine wp_when (Goes none o s.self s) ?_ (fun _ ↦ hsu) ?_
    · intro hrole
      exact wp_mono (goes_startElection (o := o) (by simp [hrole]) (Or.inl hu))
        fun _ v hv ↦ hsu.trans hv.1
    · intro v hsv
      rw [wp_bind, wp_getSelf, wp_ite]
      refine ⟨fun _ ↦ ?_, fun _ ↦ wp_pure.mpr hsv⟩
      refine wp_bind_along (aside_updateTimeout o) fun _ w hw ↦ ?_
      exact wp_mono (goes_startPoll w) fun _ x hx ↦ hsv.trans (hw.goes.trans hx)

/-! ### Elections and polls -/

/-- What follows a verified message. -/
theorem goes_verified {m : Message} {l : Letter} (received : rcv = some m)
    (letter : m.letter = some l) (valid : Bool) {s : EnclaveState} {body : Ecall Unit}
    (hbody : ∀ t, Goes rcv o p s t → l.target = t.self.id → l.term ≤ t.self.term →
      (t = s ∨ t.self.role = .follower ∧ t.self.log = s.self.log ∧ t.self.term = l.term ∧
        s.self.term < l.term) →
      wp body (fun _ u ↦ Goes rcv o p s u) t) :
    wp (do
      let verified ← verifyMacAndOwnTerm valid l.target l.source l.term
      if verified then body) (fun _ t ↦ Goes rcv o p s t) s := by
  rw [wp_bind]
  refine wp_mono (verifyMacAndOwnTerm_spec (o := o) (p := p) received letter valid s)
    fun verified t ⟨hst, hv⟩ ↦ ?_
  rw [wp_ite]
  refine ⟨fun hver ↦ ?_, fun _ ↦ wp_pure.mpr hst⟩
  obtain ⟨ha, hle, hs⟩ := hv hver
  exact hbody t hst ha hle hs

/-- `recv_poll_req` is a sequence of moves. -/
theorem goes_recvPollReq (valid : Bool) (req : PollReq) (s : EnclaveState) :
    wp (recvPollReq valid req) (fun _ t ↦ Goes (some (.pollReq req)) o s.self s t) s := by
  refine goes_verified (m := .pollReq req) (l := ⟨req.source, req.target, req.term⟩) rfl rfl valid
    fun t hst ha hle _ ↦ ?_
  have answer {u : EnclaveState} {success : Bool} (hu : u.self = t.self) :
      Says (some (.pollReq req)) u.self.node
        (.pollRsp ⟨req.source, t.self.id, t.self.term, success⟩) := by
    rw [hu]
    exact Says.pollRsp ⟨rfl, rfl, Or.inr ⟨_, _, rfl, rfl, ha, rfl⟩⟩
  rw [wp_bind, wp_getSelf, wp_bind]
  refine wp_mono (verifyMsgTerm_spec _ _ t) fun verified u hu ↦ ?_
  have htu : Goes (some (.pollReq req)) o s.self t u ∧ u.self = t.self := by
    rcases hu with ⟨-, rfl, -⟩ | ⟨-, rfl⟩
    · exact ⟨Goes.refl u, rfl⟩
    · exact ⟨Goes.say_one (answer rfl), rfl⟩
  rw [wp_ite]
  refine ⟨fun _ ↦ ?_, fun _ ↦ wp_pure.mpr (hst.trans htu.1)⟩
  rw [wp_bind, wp_lift]
  intro last _
  rw [wp_macAndSendMsg]
  exact hst.trans (htu.1.trans (Goes.say_one (answer htu.2)))

/-- `recv_poll_rsp` is a sequence of moves. -/
theorem goes_recvPollRsp (valid : Bool) (rsp : PollRsp) (s : EnclaveState) :
    wp (recvPollRsp o valid rsp) (fun _ t ↦ Goes (some (.pollRsp rsp)) o s.self s t) s := by
  refine goes_verified (m := .pollRsp rsp) (l := ⟨rsp.source, rsp.target, rsp.term⟩) rfl rfl valid
    fun t hst ha hle hs ↦ ?_
  have known {u : EnclaveState} (hu : u.self.term = t.self.term) : u.self.term = s.self.term ∨
      ∃ m l, some (Message.pollRsp rsp) = some m ∧ m.letter = some l ∧ u.self.term = l.term := by
    rcases hs with rfl | ⟨-, -, hterm, -⟩
    · exact Or.inl hu
    · exact Or.inr ⟨_, _, rfl, rfl, hu.trans hterm⟩
  rw [wp_bind, wp_getSelf, wp_ite]
  refine ⟨fun hfollows ↦ ?_, fun _ ↦ wp_pure.mpr hst⟩
  refine wp_when (Aside t) ?_ (fun _ ↦ Aside.refl t) fun u htu ↦ ?_
  · exact fun _ ↦ aside_modifySelf (by simp [Peer.node]) t
  · rw [wp_bind, wp_getSelf, wp_ite]
    refine ⟨fun _ ↦ ?_, fun _ ↦ wp_pure.mpr (hst.trans htu.goes)⟩
    have waits : u.self.role ≠ .leader := by
      rw [show u.self.role = t.self.role from congrArg Node.role htu.node, hfollows]
      decide
    exact wp_mono (goes_startElection (o := o) waits (known (congrArg Node.term htu.node)))
      fun _ v hv ↦ hst.trans (htu.goes.trans hv.1)

/-- `recv_election_req` is a sequence of moves. -/
theorem goes_recvElectionReq (valid : Bool) (req : ElectionReq) (s : EnclaveState) :
    wp (recvElectionReq valid req) (fun _ t ↦ Goes (some (.electionReq req)) o s.self s t) s := by
  refine goes_verified (m := .electionReq req) (l := ⟨req.source, req.target, req.term⟩) rfl rfl
    valid fun t hst ha hle _ ↦ ?_
  have refuse : Says (some (.electionReq req)) t.self.node
      (.electionRsp ⟨req.source, t.self.id, t.self.term, false⟩) :=
    Says.electionRsp ⟨rfl, rfl, Or.inr ⟨_, _, rfl, rfl, ha, rfl⟩⟩ rfl
  rw [wp_bind, wp_getSelf, wp_bind]
  refine wp_mono (verifyMsgTerm_spec _ _ t) fun verified u hu ↦ ?_
  rcases hu with ⟨rfl, rfl, hterm⟩ | ⟨rfl, rfl⟩
  · rename' u => t
    rw [wp_ite]
    refine ⟨fun _ ↦ ?_, fun h ↦ absurd rfl h⟩
    rw [wp_ite]
    refine ⟨fun hfollows ↦ ?_, fun _ ↦ wp_pure.mpr hst⟩
    rw [wp_bind, wp_lift]
    intro last hlast
    cases hvalid : uidsEqual t.self.endorsement emptyUid &&
        logNotAhead last req.lastTerm req.lastIndex with
    | false =>
      refine wp_when (fun u ↦ u = t) (fun h ↦ nomatch h) (fun _ ↦ rfl) ?_
      rintro u rfl
      rw [wp_macAndSendMsg]
      exact hst.trans (Goes.say_one refuse)
    | true =>
      obtain ⟨hfree, hahead⟩ := Bool.and_eq_true_iff.mp hvalid
      refine wp_when (fun u ↦ u = { t with self := { t.self with endorsement := req.source } })
        (fun _ ↦ wp_modifySelf.mpr rfl) (fun h ↦ absurd rfl h) ?_
      rintro u rfl
      rw [wp_macAndSendMsg]
      refine hst.trans (Goes.of_still ?_ rfl rfl rfl rfl rfl)
      exact Move.grant (v := t.view) rfl ha (Nat.le_antisymm hle hterm) hfollows
        ((uidsEqual_iff _ _).mp hfree) (lastEntry_ok hlast) hahead
  · rw [wp_ite]
    exact ⟨fun h ↦ Bool.noConfusion h, fun _ ↦ wp_pure.mpr (hst.trans (Goes.say_one refuse))⟩

/-- Taking the lead changes the role alone, as far as the cluster sees. -/
theorem becomeLeader_spec (s : EnclaveState) :
    wp (becomeLeader o) (fun _ t ↦ ∃ u v, Aside s u ∧
      v = { u with self := { u.self with role := .leader } } ∧ Aside v t) s := by
  unfold becomeLeader
  refine wp_bind_along (aside_modifySelf (by simp [Peer.node])) fun _ t ht ↦ ?_
  rw [wp_bind, wp_getSelf, wp_bind, wp_lift]
  intro found _
  have lead (u : EnclaveState) (hu : Aside s u) :
      wp (do
        modifySelf fun p ↦
          { p with role := .leader, leaderMap := p.leaderMap.insert p.clusterEvent p.id }
        updateTimeout o) (fun _ t ↦ ∃ u v, Aside s u ∧
          v = { u with self := { u.self with role := .leader } } ∧ Aside v t) u := by
    refine wp_bind_modifySelf fun v hv ↦ ?_
    refine wp_mono (aside_updateTimeout o v) fun _ w hw ↦ ⟨u, _, hu, rfl, ?_⟩
    refine Aside.trans ?_ hw
    rw [hv]
    exact Executes.of_self rfl rfl rfl (DcrWorkflow.SameReads.refl _) id
  cases found with
  | some index =>
    exact wp_bind_along (aside_modifySelf (by simp [Peer.node])) fun _ u hu ↦ lead u (ht.trans hu)
  | none =>
    exact wp_bind_along (aside_modifySelf (by simp [Peer.node])) fun _ u hu ↦ lead u (ht.trans hu)

/-- The election of a candidate with its heartbeats. -/
theorem goes_elect {s : EnclaveState} (stands : s.self.role = .candidate)
    (quorum : s.self.clusterSize / 2 < s.self.electionVotes) :
    wp (do
      heartbeat
      becomeLeader o) (fun _ t ↦ Goes rcv o p s t) s := by
  rw [wp_bind]
  refine wp_mono (@heartbeat_spec rcv s) ?_
  rintro _ _ ⟨ms, rfl, hms⟩
  refine wp_mono (becomeLeader_spec _) ?_
  rintro _ t ⟨u, v, hu, rfl, hv⟩
  refine Goes.trans ⟨?_, ?_⟩ hv.goes
  · obtain ⟨ns, hns, hn⟩ := hu.sent
    obtain ⟨ds, hds⟩ := hu.drawn
    have hlead : { u.self with role := Role.leader }.node = { s.self.node with role := .leader } :=
      congrArg (fun n : Node ↦ { n with role := .leader }) hu.node
    have elect : Turn rcv o p (s.view, s.self.workflow)
        (⟨{ s.self.node with role := .leader }, s.sent, s.drawn⟩, s.self.workflow) :=
      ⟨.elect (v := s.view) stands quorum, .still rfl (DcrWorkflow.SameReads.refl _)⟩
    refine (Relation.ReflTransGen.single elect).tail ⟨?_, .still (congrArg Node.commitIndex hlead)
      hu.workflow⟩
    unfold EnclaveState.view
    dsimp only
    rw [hlead, hns, hds, List.append_assoc]
    refine .say (ms ++ ns) ds fun m hm ↦ ?_
    rcases List.mem_append.mp hm with hm | hm
    · exact hms _ rfl m hm
    · exact Says.of_letter (hn m hm)
  · refine Locked.trans ?_ (hu.locked.trans ?_)
    · exact Locked.of_eq rfl rfl rfl rfl
    · exact Locked.of_eq rfl rfl rfl rfl

/-- `recv_election_rsp` is a sequence of moves. -/
theorem goes_recvElectionRsp (valid : Bool) (rsp : ElectionRsp) (s : EnclaveState) :
    wp (recvElectionRsp o valid rsp) (fun _ t ↦ Goes (some (.electionRsp rsp)) o s.self s t) s := by
  refine goes_verified (m := .electionRsp rsp) (l := ⟨rsp.source, rsp.target, rsp.term⟩) rfl rfl
    valid fun t hst ha hle hs ↦ ?_
  rw [wp_bind, wp_getSelf, wp_ite]
  refine ⟨fun hstands ↦ ?_, fun _ ↦ wp_pure.mpr hst⟩
  -- a candidate has not just taken over a later term
  have hts : t = s := by
    rcases hs with rfl | ⟨hf, -⟩
    · rfl
    · exact absurd (hstands.symm.trans hf) (by decide)
  subst hts
  rw [wp_ite]
  refine ⟨fun hgranted ↦ ?_, fun _ ↦ wp_pure.mpr hst⟩
  refine wp_bind_modifySelf fun u hu ↦ ?_
  have htu : Goes (some (.electionRsp rsp)) o t.self t u := by
    rw [hu]
    exact Goes.of_still (.count rfl ha hle hstands hgranted rfl) rfl rfl rfl rfl rfl
  have hrole : u.self.role = .candidate := by
    rw [hu]
    exact hstands
  clear hu
  rw [wp_bind, wp_getSelf, wp_ite]
  refine ⟨fun hquorum ↦ ?_, fun _ ↦ wp_pure.mpr htu⟩
  exact wp_mono (goes_elect hrole hquorum) fun _ _ h ↦ htu.trans h

/-! ### Acknowledgements -/

/-- `recv_append_rsp` is a sequence of moves. -/
theorem goes_recvAppendRsp (valid : Bool) (rsp : AppendRsp) (s : EnclaveState) :
    wp (recvAppendRsp o valid rsp) (fun _ t ↦ Goes (some (.appendRsp rsp)) o s.self s t) s := by
  refine goes_verified (m := .appendRsp rsp) (l := ⟨rsp.source, rsp.target, rsp.term⟩) rfl rfl
    valid fun t hst ha hle hs ↦ ?_
  rw [wp_bind, wp_getSelf, wp_ite]
  refine ⟨fun hleads ↦ ?_, fun _ ↦ wp_pure.mpr hst⟩
  -- a leader has not just taken over a later term
  have hts : t = s := by
    rcases hs with rfl | ⟨hf, -⟩
    · rfl
    · exact absurd (hleads.symm.trans hf) (by decide)
  subst hts
  rw [wp_ite]
  constructor
  · intro hgranted
    refine wp_bind_modifySelf fun u hu ↦ ?_
    have htu : Aside t u := by
      rw [hu]
      exact Executes.of_self rfl rfl rfl (DcrWorkflow.SameReads.refl _) id
    have hself : u.self.largestMajorityIndex = t.self.quorumIndex rsp := by rw [hu]; rfl
    clear hu
    rw [wp_bind, wp_getSelf, wp_bind, wp_lift]
    intro index hindex
    rw [hself] at hindex
    rw [wp_bind, wp_lift]
    intro e he
    rw [wp_ite]
    refine ⟨fun ⟨hterm, hforward⟩ ↦ ?_, fun _ ↦ wp_pure.mpr htu.goes⟩
    refine wp_mono (updateCommitIndex_spec o index u) ?_
    rintro _ v ⟨w, hw, -, rfl⟩
    refine htu.goes.trans (Goes.of_commit hw ?_)
    have hn : w.self.node = t.self.node := hw.node.trans htu.node
    refine Move.commit (v := w.view) rfl hn (Peer.commits_eq_some.mpr ?_)
    refine ⟨⟨ha, hleads, hle, hgranted⟩, hindex, e, ?_, ?_, ?_⟩
    · rw [← show u.self.log = t.self.log from congrArg Node.log htu.node]
      exact entryAt_ok he
    · rw [hterm]
      exact congrArg Node.term htu.node
    · rw [← show u.self.commitIndex = t.self.commitIndex from congrArg Node.commitIndex htu.node]
      exact hforward
  · intro _
    rw [wp_bind, wp_lift]
    intro prev hprev
    rw [wp_macAndSendMsg]
    obtain ⟨hpos, hprev⟩ := entryAtInt_ok hprev
    refine Goes.say_one (Says.appendReq ⟨rfl, rfl, Or.inr ⟨_, _, rfl, rfl, ha, rfl⟩⟩
      ⟨hleads, rfl, _, prev, hprev, rfl, rfl, ?_⟩)
    change t.self.log.drop rsp.prevIndex = t.self.log.drop (((rsp.prevIndex : Int) - 1).toNat + 1)
    rw [show ((rsp.prevIndex : Int) - 1).toNat + 1 = rsp.prevIndex by omega]

end TrustedDcr.Enclave
