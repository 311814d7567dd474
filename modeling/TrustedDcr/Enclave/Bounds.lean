import TrustedDcr.Enclave.Returns

/-!
# Calls that return

What each call needs of the peer and of the received message to read inside the log
only. The positions that come with a message are those of acknowledgements and
rejections; the position of the lock is read for ABORT responses and entries.
-/

namespace TrustedDcr.Enclave
open TrustedDcr.Msg TrustedDcr.Dcr TrustedDcr.Theory

variable {o : Oracle} {s : EnclaveState}

/-! ### Time -/

/-- A leader's timeout leaves it leading. -/
theorem leads_leaderTimeout (leads : s.self.role = .leader) :
    wp (leaderTimeout o) (fun _ t ↦ t.self.role = .leader) s := by
  unfold leaderTimeout
  rw [wp_bind]
  refine wp_mono (@goes_heartbeat none o s.self s leads) ?_
  rintro _ t ⟨-, self, -⟩
  rw [wp_bind]
  refine wp_mono (goes_retryRequests (o := o) (p := t.self) rfl (self ▸ leads) rfl rfl rfl rfl) ?_
  rintro _ u ⟨-, -, hu⟩
  exact wp_mono (aside_updateTimeout o u) fun _ _ h ↦ (congrArg Node.role h.node).trans hu

/-- `set_time` returns where the indices lie in the log. -/
theorem returns_setTime (ticks : UInt64) (h : s.self.InLog) : Returns (setTime o ticks) s := by
  apply returns_bind_getSelf
  apply returns_bind_modifySelf
  intro t ht
  have inLog : t.self.InLog := by
    rw [ht]
    exact h.keep rfl id
  clear ht
  apply returns_bind_getSelf
  apply Returns.ite
  · intro _
    apply returns_bind_getSelf
    apply Returns.when fun u ↦ u = t ∧ t.self.role ≠ .leader ∨ u.self.role = .leader
    · intro leads
      apply (returns_heartbeat inLog.nonempty).bind
      refine wp_mono (@goes_heartbeat none o t.self t leads) ?_
      rintro _ u ⟨-, self, -⟩
      exact (returns_retryRequests (self ▸ inLog)).bind_total fun _ ↦ total_updateTimeout
    · exact fun leads ↦ wp_mono (leads_leaderTimeout leads) fun _ _ h ↦ Or.inr h
    · exact fun waits ↦ Or.inl ⟨rfl, waits⟩
    · -- a leader stays one, and takes neither of the other branches
      intro u hu
      apply returns_bind_getSelf
      apply Returns.when fun v ↦ v = t ∨ v.self.role ≠ .follower
      · intro stands
        obtain ⟨rfl, -⟩ | leads := hu
        · exact returns_startElection inLog.nonempty
        · exact absurd (stands.symm.trans leads) (by decide)
      · intro stands
        refine wp_mono (@goes_startElection none o u.self u ?_ (Or.inl rfl)) ?_
        · simp [stands]
        · exact fun _ v hv ↦ Or.inr (by simp [hv.2])
      · intro _
        obtain ⟨rfl, -⟩ | leads := hu
        · exact Or.inl rfl
        · exact Or.inr (by simp [leads])
      · intro v hv
        apply returns_bind_getSelf
        apply Returns.ite
        · intro follows
          obtain rfl | waits := hv
          · apply Returns.bind (total_updateTimeout v)
            refine wp_mono (aside_updateTimeout o v) fun _ w hw ↦ returns_startPoll ?_
            exact (congrArg Node.log hw.node).trans_ne inLog.nonempty
          · exact absurd follows waits
        · exact fun _ ↦ Returns.pure _
  · exact fun _ ↦ Returns.pure _

/-! ### Commands -/

/-- The ABORT request that enters the log. -/
def Peer.appendsAbort (p : Peer) (req : CommandReq) : Bool :=
  uidsEqual req.target p.id && p.role == .leader && (p.existInLog req.tag).isNone &&
    req.tag.type == .abort

private theorem returns_appendCommand (req : CommandReq) (tag : CommandTag) (h : s.self.InLog)
    (alone : s.self.clusterSize = 1 → tag.type ≠ .abort) : Returns (appendCommand o req tag) s := by
  apply returns_bind_getSelf
  exact returns_appendToLog h alone

/-- A command request is handled, unless it has a lone leader commit an ABORT. -/
theorem returns_recvCommandReq (valid : Bool) (req : CommandReq) (h : s.self.InLog)
    (alone : s.self.appendsAbort req = true → s.self.clusterSize ≠ 1) :
    Returns (recvCommandReq o valid req) s := by
  apply returns_bind_getSelf
  apply Returns.ite fun _ ↦ Returns.pure _
  intro _
  apply Returns.ite fun _ ↦ Returns.pure _
  intro target
  apply Returns.ite fun _ ↦ total_macAndSendMsg _ s
  intro leads
  cases hfresh : s.self.existInLog req.tag with
  | some index => exact Returns.ite (fun _ ↦ total_macAndSendMsg _ s) fun _ ↦ Returns.pure _
  | none =>
    apply Returns.ite
    · intro lock
      apply returns_bind_getSelf
      apply Returns.bind (Returns.lift (Peer.exists_hasUnresolvedLock h.commit))
      rw [wp_lift]
      intro found _
      have append (tag : CommandTag) (other : tag.type ≠ .abort) {t : EnclaveState}
          (ht : t.self.InLog) : Returns (appendCommand o req tag) t :=
        returns_appendCommand req tag ht fun _ ↦ other
      apply Returns.ite fun _ ↦ total_macAndSendMsg _ s
      intro _
      apply Returns.ite
      · intro _
        apply returns_bind_modifySelf
        intro t ht
        have inLog : t.self.InLog := by
          rw [ht]
          exact h.keep rfl id
        apply Returns.ite fun _ ↦ total_macAndSendMsg _ t
        intro _
        apply Returns.ite
        · exact fun _ ↦ append _ (by simp) inLog
        · exact fun _ ↦ append _ (by simp [lock]) inLog
      · exact fun _ ↦ append _ (by simp [lock]) h
    · intro _
      apply returns_appendCommand req req.tag h
      intro hone habort
      refine absurd hone (alone ?_)
      unfold Peer.appendsAbort
      simp only [Bool.not_eq_true, Bool.not_eq_false', ne_eq, not_not] at target leads
      simp [target, leads, hfresh, habort]

/-- The ABORT response whose handling reads the locked entry. -/
def Peer.takesAbort (p : Peer) (rsp : CommandRsp) : Bool :=
  uidsEqual rsp.target p.id && p.role == .leader &&
    (rsp.success || uidsEqual rsp.leader emptyUid) && rsp.tag.type == .abort

/-- Any other ABORT response is ignored or names another leader. -/
theorem recvCommandRsp_of_abort (valid : Bool) {rsp : CommandRsp} (type : rsp.tag.type = .abort)
    (ignores : s.self.takesAbort rsp = false) :
    wp (recvCommandRsp o valid rsp) (fun _ t ↦ t.self.node = s.self.node) s := by
  unfold recvCommandRsp
  rw [wp_bind, wp_getSelf, wp_ite]
  refine ⟨fun _ ↦ wp_pure.mpr rfl, fun _ ↦ ?_⟩
  rw [wp_ite]
  refine ⟨fun _ ↦ wp_pure.mpr rfl, fun target ↦ ?_⟩
  rw [wp_ite]
  refine ⟨fun _ ↦ wp_pure.mpr rfl, fun leads ↦ ?_⟩
  rw [wp_ite]
  refine ⟨fun _ ↦ wp_mono (aside_recvRedirect rsp s) fun _ _ h ↦ h.node, fun granted ↦ ?_⟩
  unfold Peer.takesAbort at ignores
  simp only [Bool.not_eq_true, Bool.not_eq_false', ne_eq, not_not] at target leads
  cases hsuccess : rsp.success <;> simp_all

/-- With a lock held, in a cluster of several peers. -/
theorem returns_recvAbortRsp (rsp : CommandRsp) (h : s.self.InLog)
    (held : s.self.lockedEntryIndex ≠ -1) (several : s.self.clusterSize ≠ 1) :
    Returns (recvAbortRsp o rsp) s := by
  apply Returns.bind (total_leaderMapAt _ s)
  refine wp_mono (files_leaderMapAt rsp.source s) ?_
  rintro event _ ⟨leaders, requests, rfl⟩
  apply returns_bind_getSelf
  obtain ⟨e, he⟩ := h.exists_locked held
  apply Returns.bind (Returns.lift ⟨e, he⟩)
  rw [wp_lift]
  intro _ _
  apply Returns.ite fun _ ↦ Returns.pure _
  intro _
  apply Returns.bind (Returns.lift (exists_ok_bind ⟨e, he⟩ fun _ _ ↦ ⟨_, rfl⟩))
  rw [wp_lift]
  intro own _
  apply Returns.ite
  · exact fun _ ↦ returns_abortExecution _ (h.keep rfl id) several
  · exact fun _ ↦ Returns.ite (fun unset ↦ absurd unset held) fun _ ↦ Returns.pure _

private theorem returns_countLock (rsp : CommandRsp) (h : s.self.InLog) :
    Returns (countLock o rsp) s := by
  apply Returns.bind (total_peerToEventMapAt _ s)
  refine wp_mono (wp_and (aside_peerToEventMapAt rsp.source s)
    (walk_tenure.peerToEventMapAt rsp.source s)) ?_
  rintro event t ⟨hst, hst'⟩
  apply returns_bind_modifySelf
  intro u hu
  have inLog : u.self.InLog := by
    rw [hu]
    exact (h.aside hst hst').keep rfl id
  apply returns_bind_getSelf
  apply Returns.ite
  · intro _
    have sends : Total (sendExecution o rsp.tag.uid) :=
      total_getSelf.bind fun _ ↦ total_sendCommands _ _
    apply (sends u).bind
    refine wp_mono (wp_and (aside_sendExecution o rsp.tag.uid u)
      (walk_tenure.sendExecution _ u)) ?_
    rintro _ v ⟨huv, huv'⟩
    apply Returns.bind_total (returns_appendToLog (inLog.aside huv huv') (by simp))
    exact fun _ ↦ total_modifySelf _
  · exact fun _ ↦ Returns.pure _

private theorem returns_recvLockRsp (rsp : CommandRsp) (h : s.self.InLog) :
    Returns (recvLockRsp o rsp) s := by
  apply returns_bind_getSelf
  cases hfound : s.self.existInLog rsp.tag with
  | none => exact Returns.pure _
  | some lockIndex =>
    have inside : lockIndex < s.self.log.length := by
      unfold Peer.existInLog at hfound
      obtain ⟨e, he, rfl⟩ := Option.map_eq_some_iff.mp hfound
      exact h.indexed e (List.mem_of_find?_eq_some he)
    apply Returns.bind (Returns.lift (Peer.exists_lockIsResolved h.commit inside))
    rw [wp_lift]
    intro resolved _
    apply Returns.ite
    · intro _
      apply returns_bind_getSelf
      apply Returns.bind_total (Returns.lift (Peer.exists_lockResolveIsCommitted h.commit inside))
      intro committed
      exact Total.ite ((total_modifySelf _).bind fun _ ↦ total_macAndSendMsg _) (Total.pure _)
    · exact fun _ ↦ returns_countLock rsp h

/-- A command response is handled, unless an ABORT finds no locked entry or a lone leader. -/
theorem returns_recvCommandRsp (valid : Bool) (rsp : CommandRsp) (h : s.self.InLog)
    (held : s.self.takesAbort rsp = true →
      s.self.lockedEntryIndex ≠ -1 ∧ s.self.clusterSize ≠ 1) :
    Returns (recvCommandRsp o valid rsp) s := by
  apply returns_bind_getSelf
  apply Returns.ite fun _ ↦ Returns.pure _
  intro _
  apply Returns.ite fun _ ↦ Returns.pure _
  intro target
  apply Returns.ite fun _ ↦ Returns.pure _
  intro leads
  apply Returns.ite fun _ ↦ total_recvRedirect rsp s
  intro granted
  apply (total_clearMissingResp rsp s).bind
  refine wp_mono (clearMissingResp_spec rsp s) ?_
  rintro _ _ ⟨missing, rfl⟩
  cases htype : rsp.tag.type with
  | abort =>
    have takes : s.self.takesAbort rsp = true := by
      unfold Peer.takesAbort
      simp only [Bool.not_eq_true, Bool.not_eq_false', ne_eq, not_not] at target leads
      cases hsuccess : rsp.success <;> simp_all
    exact returns_recvAbortRsp rsp (h.keep rfl id) (held takes).1 (held takes).2
  | exec => exact total_modifySelf _ _
  | lock => exact returns_recvLockRsp rsp (h.keep rfl id)
  | checkpoint => exact Returns.pure _

/-! ### Replication -/

/-- The verification leaves the peer alone or makes it a follower of the message's term. -/
theorem verifyMacAndOwnTerm_cases (valid : Bool) (target source : Uid) (term : Nat)
    (s : EnclaveState) : wp (verifyMacAndOwnTerm valid target source term) (fun verified t ↦
      t = s ∧ (verified = true → target = s.self.id ∧ term ≤ s.self.term) ∨
        t = { s with self := { s.self.updateTerm term source with
          lockedEntryIndex := -1
          role := .follower } }) s := by
  unfold verifyMacAndOwnTerm
  rw [wp_ite]
  refine ⟨fun _ ↦ wp_pure.mpr (Or.inl ⟨rfl, fun h ↦ nomatch h⟩), fun _ ↦ ?_⟩
  rw [wp_bind, wp_getSelf, wp_ite]
  refine ⟨fun _ ↦ wp_pure.mpr (Or.inl ⟨rfl, fun h ↦ nomatch h⟩), fun htarget ↦ ?_⟩
  rw [wp_ite]
  constructor
  · intro _
    rw [wp_bind, wp_modifySelf, wp_pure]
    exact Or.inr rfl
  · intro hterm
    exact wp_pure.mpr (Or.inl ⟨rfl, fun _ ↦ ⟨by simpa using htarget, Nat.not_lt.mp hterm⟩⟩)

/-- What follows a verified message, for a peer that is as before or has just become a follower. -/
theorem returns_verified (valid : Bool) (target source : Uid) (term : Nat) {body : Ecall Unit}
    (h : s.self.InLog) (still : target = s.self.id → term ≤ s.self.term → Returns body s)
    (follows : ∀ t, t.self.InLog → t.self.role = .follower → Returns body t) :
    Returns (do
      let verified ← verifyMacAndOwnTerm valid target source term
      if verified then body) s := by
  apply (total_verifyMacAndOwnTerm _ _ _ _ s).bind
  refine wp_mono (verifyMacAndOwnTerm_cases valid target source term s) ?_
  rintro verified t ht
  apply Returns.ite
  · intro hver
    obtain ⟨rfl, hv⟩ | rfl := ht
    · exact still (hv hver).1 (hv hver).2
    · exact follows _ ⟨h.commit, h.indexed, h.alone, Or.inl rfl⟩ rfl
  · exact fun _ ↦ Returns.pure _

/-- The rest returns for the peer either way. -/
theorem returns_verified_of_inLog (valid : Bool) (target source : Uid) (term : Nat)
    {body : Ecall Unit} (h : s.self.InLog) (hbody : ∀ t, t.self.InLog → Returns body t) :
    Returns (do
      let verified ← verifyMacAndOwnTerm valid target source term
      if verified then body) s :=
  returns_verified valid target source term h (fun _ _ ↦ hbody s h) fun t ht _ ↦ hbody t ht

/-- A message of an old term ends the call, or at least changes nothing of the peer. -/
theorem verifyMsgTerm_self (term : Nat) (rsp : Message) (s : EnclaveState) :
    wp (verifyMsgTerm term rsp) (fun _ t ↦ t.self = s.self) s := by
  refine wp_mono (verifyMsgTerm_spec term rsp s) ?_
  rintro _ _ (⟨-, rfl, -⟩ | ⟨-, rfl⟩)
  · rfl
  · rfl

/-- A follower with a log takes entries in. -/
theorem returns_acceptEntries (req : AppendReq) (nonempty : s.self.log ≠ [])
    (follows : s.self.role = .follower) : Returns (acceptEntries o req) s := by
  apply returns_bind_modifySelf
  intro t ht
  apply returns_bind_modifySelf
  intro u hu
  have log : u.self.log ≠ [] := by
    rw [hu, ht]
    simp [Peer.removeElementsAfter, nonempty]
  have waits : u.self.role ≠ .leader := by
    rw [hu, ht]
    simp [Peer.removeElementsAfter, follows]
  clear hu ht
  apply returns_bind_getSelf
  apply Returns.when fun _ ↦ True
  · intro _
    apply returns_updateCommitIndex
    · have := List.length_pos_of_ne_nil log
      omega
    · exact fun leads ↦ absurd leads waits
    · exact fun leads ↦ absurd leads waits
  · exact fun _ _ _ _ ↦ trivial
  · exact fun _ ↦ trivial
  · exact fun v _ ↦ total_macAndSendMsg _ v

/-- An append request is handled. -/
theorem returns_recvAppendReq (valid : Bool) (req : AppendReq) (h : s.self.InLog) :
    Returns (recvAppendReq o valid req) s := by
  refine returns_verified_of_inLog valid _ _ _ h fun t ht ↦ ?_
  apply returns_bind_getSelf
  apply (total_verifyMsgTerm _ _ t).bind
  refine wp_mono (verifyMsgTerm_self _ _ t) fun verified u hu ↦ ?_
  rw [← hu] at ht
  apply Returns.ite
  · intro _
    apply Returns.ite
    · intro follows
      apply Returns.when fun v ↦ v.self.InLog ∧ v.self.role = .follower
      · exact fun _ ↦ total_updateTimeout u
      · intro _
        refine wp_mono (wp_and (aside_updateTimeout o u) (walk_tenure.updateTimeout u)) ?_
        rintro _ v ⟨huv, huv'⟩
        exact ⟨ht.aside huv huv', (congrArg Node.role huv.node).trans (hu ▸ follows)⟩
      · exact fun _ ↦ ⟨ht, hu ▸ follows⟩
      · rintro v ⟨hv, role⟩
        apply Returns.ite
        · exact fun _ ↦ total_macAndSendMsg _ v
        · exact fun _ ↦ returns_acceptEntries req hv.nonempty role
    · exact fun _ ↦ Returns.pure _
  · exact fun _ ↦ Returns.pure _

/-- A follower's commit index stays inside the log that an accepted request leaves. -/
theorem recvAppendReq_commit (valid : Bool) (req : AppendReq)
    (commit : s.self.commitIndex < s.self.log.length)
    (keeps : s.self.accepts req = true →
      s.self.commitIndex ≤ req.prevIndex + req.entries.length) :
    wp (recvAppendReq o valid req) (fun _ t ↦ t.self.commitIndex < t.self.log.length) s := by
  unfold recvAppendReq
  rw [wp_bind]
  refine wp_mono (wp_and (verifyMacAndOwnTerm_cases valid req.target req.source req.term s)
    (verifyMacAndOwnTerm_spec (o := o) (p := s.self) (m := .appendReq req)
      (l := ⟨req.source, req.target, req.term⟩) rfl rfl valid s)) ?_
  rintro verified t ⟨hcases, -, hv⟩
  have hlog : t.self.log = s.self.log := by
    obtain ⟨rfl, -⟩ | rfl := hcases <;> rfl
  have hcommit : t.self.commitIndex = s.self.commitIndex := by
    obtain ⟨rfl, -⟩ | rfl := hcases <;> rfl
  have hid : t.self.id = s.self.id := by
    obtain ⟨rfl, -⟩ | rfl := hcases <;> rfl
  rw [← hlog, ← hcommit] at commit
  rw [wp_ite]
  refine ⟨fun hver ↦ ?_, fun _ ↦ wp_pure.mpr commit⟩
  obtain ⟨ha, hle, hs⟩ := hv hver
  rw [wp_bind, wp_getSelf, wp_bind]
  refine wp_mono (verifyMsgTerm_spec _ _ t) fun verified u hu ↦ ?_
  rcases hu with ⟨rfl, rfl, hterm⟩ | ⟨rfl, rfl⟩
  · rename' u => t
    rw [if_pos rfl, wp_ite]
    refine ⟨fun hfollows ↦ ?_, fun _ ↦ wp_pure.mpr commit⟩
    refine wp_when (fun u ↦ u.self.node = t.self.node) (fun _ ↦ ?_) (fun _ ↦ rfl) fun u hu ↦ ?_
    · exact wp_mono (aside_updateTimeout o t) fun _ _ h ↦ h.node
    · have hulog : u.self.log = t.self.log := congrArg Node.log hu
      have hucommit : u.self.commitIndex = t.self.commitIndex := congrArg Node.commitIndex hu
      rw [wp_ite]
      constructor
      · intro _
        rw [wp_macAndSendMsg]
        dsimp only
        rwa [hulog, hucommit]
      · intro hexists
        obtain ⟨prev, hprev, hpt⟩ := exists_of_termAndIndexExistInLog (by simpa using hexists)
        have opens : s.self.term < req.term ∨ s.self.role = .follower := by
          rcases hs with rfl | ⟨-, -, -, hlt⟩
          · exact Or.inr hfollows
          · exact Or.inl hlt
        have accepts : s.self.accepts req = true := by
          have exists' : s.self.termAndIndexExistInLog req.prevTerm req.prevIndex = true := by
            unfold Peer.termAndIndexExistInLog
            rw [← hlog, hprev]
            simp [hpt]
          have current : s.self.term < req.term ∨
              s.self.term = req.term ∧ s.self.role = .follower := by
            rcases hs with rfl | ⟨-, -, -, hlt⟩
            · exact Or.inr ⟨Nat.le_antisymm hterm hle, hfollows⟩
            · exact Or.inl hlt
          have target : req.target = s.self.id := ha.trans hid
          unfold Peer.accepts
          rw [exists', target]
          simpa using current
        refine wp_mono (acceptEntries_spec (q := s.self) (ha.trans (congrArg Node.id hu).symm)
          ((Nat.le_antisymm hle hterm).trans (congrArg Node.term hu).symm)
          ((congrArg Node.role hu).trans hfollows) opens (hulog.trans hlog) (hulog ▸ hprev) hpt) ?_
        rintro _ v ⟨-, hnode, -⟩
        have hlt := (List.getElem?_eq_some_iff.mp hprev).1
        have hkeeps := keeps accepts
        rw [show v.self.log = (u.self.node.accept req).log from congrArg Node.log hnode,
          show v.self.commitIndex = (u.self.node.accept req).commitIndex from
            congrArg Node.commitIndex hnode]
        have hlength : (u.self.node.accept req).log.length =
            req.prevIndex + 1 + req.entries.length := by
          change (u.self.log.take (req.prevIndex + 1) ++ req.entries).length = _
          rw [List.length_append, hulog, List.length_take_of_le hlt]
        rw [hlength]
        change (if req.commitIndex > u.self.commitIndex then
          min req.commitIndex ((u.self.node.accept req).log.length - 1)
          else u.self.commitIndex) < _
        rw [hlength, hucommit, hcommit]
        split <;> omega
  · rw [if_neg Bool.false_ne_true]
    exact wp_pure.mpr commit

/-- Without a request to append, commitment stays inside the log. -/
theorem commit_of_moves {rcv : Option Message} {p : Peer} {v w : View}
    (other : ∀ req, rcv ≠ some (.appendReq req))
    (commit : v.node.commitIndex < v.node.log.length)
    (moves : Relation.ReflTransGen (Move rcv o p) v w) :
    w.node.commitIndex < w.node.log.length := by
  induction moves with
  | refl => exact commit
  | tail _ move ih =>
    cases move with
    | say | bump | stand | grant | count | elect => exact ih
    | append =>
      rw [List.length_append]
      exact Nat.lt_add_right _ ih
    | accept received => exact absurd received (other _)
    | commit received start commits =>
      obtain ⟨-, -, e, he, -⟩ := Peer.commits_eq_some.mp commits
      rw [show _ = p.node from start]
      exact (List.getElem?_eq_some_iff.mp he).1
    | commitAlone leads alone nonempty =>
      have := List.length_pos_of_ne_nil nonempty
      dsimp only
      omega

/-- The rejection a leader answers with the entries from its previous index on. -/
def Peer.takesRejection (p : Peer) (rsp : AppendRsp) : Bool :=
  uidsEqual rsp.target p.id && p.role == .leader && rsp.term ≤ p.term && !rsp.success

/-- The entries a leader is about to commit on an acknowledgement. -/
def Peer.committedBy (p : Peer) (rsp : AppendRsp) : List Entry :=
  match p.commits rsp with
  | some index => (p.log.take (index + 1)).drop (p.commitIndex + 1)
  | none => []

/-- An append response is handled where the indices it makes the leader read lie in the log. -/
theorem returns_recvAppendRsp (valid : Bool) (rsp : AppendRsp) (h : s.self.InLog)
    (indices : s.self.role = .leader →
      ∀ (r : Uid) i, s.self.indices[r]? = some i → i < s.self.log.length)
    (acked : s.self.takesAck rsp = true → rsp.lastIndex < s.self.log.length)
    (held : abortsHeld s.self.log s.self.lockedEntryIndex (s.self.committedBy rsp) = true)
    (rejected : s.self.takesRejection rsp = true →
      1 ≤ rsp.prevIndex ∧ rsp.prevIndex ≤ s.self.log.length) :
    Returns (recvAppendRsp o valid rsp) s := by
  apply returns_verified valid _ _ _ h
  · intro target hle
    apply returns_bind_getSelf
    apply Returns.ite
    · intro leads
      apply Returns.ite
      · intro success
        have takes : s.self.takesAck rsp = true := by
          simp [Peer.takesAck, target, leads, hle, success]
        apply returns_bind_modifySelf
        intro t ht
        have log : t.self.log = s.self.log := by rw [ht]
        have inside (r : Uid) (i : Nat) (hi : t.self.indices[r]? = some i) :
            i < t.self.log.length := by
          rw [ht] at hi ⊢
          dsimp only at hi ⊢
          rw [Std.ExtTreeMap.getElem?_insert] at hi
          by_cases hsource : compare rsp.source r = .eq
          · rw [if_pos hsource] at hi
            exact Option.some.inj hi ▸ acked takes
          · rw [if_neg hsource] at hi
            exact indices leads r i hi
        have entered : t.self.indices[rsp.source]? = some rsp.lastIndex := by
          rw [ht]
          simp
        have quorum : t.self.largestMajorityIndex = s.self.quorumIndex rsp := by rw [ht]; rfl
        obtain ⟨index, hindex, r, hr⟩ := Peer.exists_largestMajorityIndex entered
        have hlt := inside r index hr
        apply returns_bind_getSelf
        apply Returns.bind (Returns.lift ⟨index, hindex⟩)
        rw [wp_lift]
        intro _ hi
        obtain rfl := Except.ok.inj (hindex.symm.trans hi)
        apply Returns.bind (Returns.lift (Peer.exists_entryAt hlt))
        rw [wp_lift]
        intro entry hentry
        apply Returns.ite
        · rintro ⟨hterm, hahead⟩
          have commits : s.self.commits rsp = some index := by
            refine Peer.commits_eq_some.mpr ⟨⟨target, leads, hle, success⟩, quorum ▸ hindex, entry,
              log ▸ entryAt_ok hentry, ?_, ?_⟩
            · rw [hterm, ht]
            · rw [ht] at hahead
              exact hahead
          apply returns_updateCommitIndex hlt
          · intro _
            left
            rw [ht]
            exact (h.keep rfl id).locked
          · intro _
            unfold Peer.committedBy at held
            rw [commits] at held
            rw [ht]
            exact held
        · exact fun _ ↦ Returns.pure _
      · intro hrefused
        have takes : s.self.takesRejection rsp = true := by
          simpa [Peer.takesRejection, target, leads, hle] using hrefused
        obtain ⟨pos, hlast⟩ := rejected takes
        apply Returns.bind_total (Returns.lift (Peer.exists_entryAtInt (by omega) (by omega)))
        exact fun prev ↦ total_macAndSendMsg _
    · exact fun _ ↦ Returns.pure _
  · intro t _ follows
    apply returns_bind_getSelf
    rw [if_neg (by simp [follows])]
    exact Returns.pure _

/-! ### Elections and logs -/

/-- A poll request is handled. -/
theorem returns_recvPollReq (valid : Bool) (req : PollReq) (h : s.self.InLog) :
    Returns (recvPollReq valid req) s := by
  refine returns_verified_of_inLog valid _ _ _ h fun t ht ↦ ?_
  apply returns_bind_getSelf
  apply (total_verifyMsgTerm _ _ t).bind_total
  intro _
  apply Total.ite
  · apply Total.bind (Total.lift (Peer.exists_lastEntry ht.nonempty))
    exact fun last ↦ total_macAndSendMsg _
  · exact Total.pure _

/-- A poll response is handled. -/
theorem returns_recvPollRsp (valid : Bool) (rsp : PollRsp) (h : s.self.InLog) :
    Returns (recvPollRsp o valid rsp) s := by
  refine returns_verified_of_inLog valid _ _ _ h fun t ht ↦ ?_
  apply returns_bind_getSelf
  apply Returns.ite
  · intro _
    apply Returns.when fun u ↦ u.self.log = t.self.log
    · exact fun _ ↦ total_modifySelf _ t
    · exact fun _ ↦ wp_modifySelf.mpr rfl
    · exact fun _ ↦ rfl
    · intro u hu
      apply returns_bind_getSelf
      apply Returns.ite
      · exact fun _ ↦ returns_startElection (hu.trans_ne ht.nonempty)
      · exact fun _ ↦ Returns.pure _
  · exact fun _ ↦ Returns.pure _

/-- An election request is handled. -/
theorem returns_recvElectionReq (valid : Bool) (req : ElectionReq) (h : s.self.InLog) :
    Returns (recvElectionReq valid req) s := by
  refine returns_verified_of_inLog valid _ _ _ h fun t ht ↦ ?_
  apply returns_bind_getSelf
  apply (total_verifyMsgTerm _ _ t).bind_total
  intro verified
  apply Total.ite
  · apply Total.ite
    · apply Total.bind (Total.lift (Peer.exists_lastEntry ht.nonempty))
      intro last
      exact Total.ite ((total_modifySelf _).bind fun _ ↦ total_macAndSendMsg _)
        (total_macAndSendMsg _)
    · exact Total.pure _
  · exact Total.pure _

/-- An election response is handled. -/
theorem returns_recvElectionRsp (valid : Bool) (rsp : ElectionRsp) (h : s.self.InLog) :
    Returns (recvElectionRsp o valid rsp) s := by
  refine returns_verified_of_inLog valid _ _ _ h fun t ht ↦ ?_
  apply returns_bind_getSelf
  apply Returns.ite
  · intro _
    apply Returns.ite
    · intro _
      apply returns_bind_modifySelf
      intro u hu
      have log : u.self.log = t.self.log := by rw [hu]
      have commit : u.self.commitIndex = t.self.commitIndex := by rw [hu]
      apply returns_bind_getSelf
      apply Returns.ite
      · intro _
        apply (returns_heartbeat (log.trans_ne ht.nonempty)).bind
        refine wp_mono (@heartbeat_spec none u) ?_
        rintro _ v ⟨ms, rfl, -⟩
        apply returns_becomeLeader
        dsimp only
        rw [log, commit]
        exact ht.commit
      · exact fun _ ↦ Returns.pure _
    · exact fun _ ↦ Returns.pure _
  · exact fun _ ↦ Returns.pure _

/-- A history request is handled. -/
theorem returns_recvLogReq (valid : Bool) (req : LogReq) (h : s.self.InLog) :
    Returns (recvLogReq valid req) s := by
  apply returns_bind_getSelf
  apply Returns.ite fun _ ↦ Returns.pure _
  intro _
  apply Returns.ite fun _ ↦ Returns.pure _
  intro _
  apply Returns.ite
  · intro _
    have reads : Total ((List.range (s.self.commitIndex + 1)).mapM fun i ↦
        (s.self.entryAt i : Ecall Entry)) := by
      apply Total.mapM
      intro i hi
      have := h.commit
      rw [List.mem_range] at hi
      exact Total.lift (Peer.exists_entryAt (by omega))
    exact (reads s).bind_total fun entries ↦ total_macAndSendMsg _
  · exact fun _ ↦ total_macAndSendMsg _ s

/-- A history response is handled in every state. -/
theorem total_recvLogRsp (valid : Bool) (rsp : LogRsp) : Total (recvLogRsp valid rsp) := by
  apply Total.ite _ (Total.pure _)
  apply (total_peerToEventMapAt _).bind
  intro event
  apply Total.ite
  · exact (total_modifySelf _).bind fun _ ↦ total_getSelf.bind fun _ ↦ total_macAndSendMsg _
  · exact Total.modify _

/-- `execute` returns in every state. -/
theorem total_execute (event : Uid) : Total (execute o event) := by
  apply (total_leaderMapAt event).bind
  intro leader
  apply total_getSelf.bind
  intro self
  exact total_generateRandomUid.bind fun _ ↦ total_macAndSendMsg _

/-- `get_history` returns in every state. -/
theorem total_getHistory : Total getHistory := by
  apply total_getSelf.bind
  intro self
  apply Total.bind (Total.mapM fun event _ ↦ (total_leaderMapAt event).bind fun _ ↦ Total.pure _)
  exact fun reqs ↦ total_macAndBroadcastMsgs reqs

end TrustedDcr.Enclave
