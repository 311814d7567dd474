import TrustedDcr.Enclave.Commands
import TrustedDcr.Enclave.Walk

/-!
# What a leader carries through its term

The acknowledged indices and the position of the lock a new leader found belong to
the lead alone, and nothing resets them with the term. Every call but two leaves the
indices as they are and makes no leader: `recv_append_rsp` enters an index, and
`recv_election_rsp` makes the candidate a leader that keeps the indices it has.
-/

namespace TrustedDcr.Enclave
open TrustedDcr.Msg TrustedDcr.Dcr TrustedDcr.Theory

/-- `locked_entry_index` is unset, or a leader's, who has the entry. -/
def Peer.LockInLog (p : Peer) : Prop :=
  p.lockedEntryIndex = -1 ∨
    p.role = .leader ∧ 0 ≤ p.lockedEntryIndex ∧ p.lockedEntryIndex.toNat < p.log.length

/-- The indices stay, nobody starts to lead, and the locked entry is not lost. -/
structure Tenure (s t : EnclaveState) : Prop where
  indices : t.self.indices = s.self.indices
  leads : t.self.role = .leader → s.self.role = .leader ∧ t.self.term = s.self.term
  locked : s.self.LockInLog → t.self.LockInLog

namespace Tenure

/-- Nothing changed is nothing lost. -/
protected theorem refl (s : EnclaveState) : Tenure s s := ⟨rfl, fun h ↦ ⟨h, rfl⟩, id⟩

/-- A tenure goes on through two calls in a row. -/
protected theorem trans {s t u : EnclaveState} (st : Tenure s t) (tu : Tenure t u) :
    Tenure s u where
  indices := tu.indices.trans st.indices
  leads h := by
    obtain ⟨ht, htu⟩ := tu.leads h
    obtain ⟨hs, hst⟩ := st.leads ht
    exact ⟨hs, htu.trans hst⟩
  locked h := tu.locked (st.locked h)

instance : Std.Refl Tenure := ⟨Tenure.refl⟩
instance : IsTrans EnclaveState Tenure := ⟨fun _ _ _ ↦ Tenure.trans⟩

/-- The position is unset where nobody starts to lead. -/
theorem of_unset {s t : EnclaveState} (indices : t.self.indices = s.self.indices)
    (leads : t.self.role = .leader → s.self.role = .leader ∧ t.self.term = s.self.term)
    (unset : t.self.lockedEntryIndex = -1) : Tenure s t := ⟨indices, leads, fun _ ↦ Or.inl unset⟩

/-- Without a leader the position is unset already. -/
theorem of_not_leads {s t : EnclaveState} (waits : s.self.role ≠ .leader)
    (waits' : t.self.role ≠ .leader) (indices : t.self.indices = s.self.indices)
    (lockedEntryIndex : t.self.lockedEntryIndex = s.self.lockedEntryIndex) : Tenure s t where
  indices := indices
  leads h := absurd h waits'
  locked h := by
    rcases h with h | ⟨h, -⟩
    · exact Or.inl (lockedEntryIndex.trans h)
    · exact absurd h waits

end Tenure

/-! ### The helpers -/

section
variable {o : Oracle}

/-- An assignment that has nothing to do with the lead. -/
theorem tenure_modifySelf {g : Peer → Peer} (h : ∀ p, (g p).lead = p.lead) :
    Along Tenure (modifySelf g) := by
  intro s
  have lead := h s.self
  simp only [Peer.lead, Lead.mk.injEq] at lead
  obtain ⟨role, term, log, indices, lockedEntryIndex⟩ := lead
  refine wp_modifySelf.mpr ⟨indices, fun leads ↦ ⟨role ▸ leads, term⟩, fun locked ↦ ?_⟩
  unfold Peer.LockInLog
  dsimp only
  rwa [lockedEntryIndex, role, log]

/-- Sending leaves indices, lead and lock as they were. -/
theorem tenure_macAndSendMsg (msg : Message) : Along Tenure (macAndSendMsg msg) :=
  Along.modify fun s ↦ { Tenure.refl s with }

/-- Clerical assignments change no lead but to give it up. -/
theorem walk_tenure : Walk Clerical fun _ x ↦ Along Tenure x := by
  apply walk_along
  case assign =>
    intro g written _
    cases written with
    | keeps h => exact tenure_modifySelf h
    | appends entry h =>
      intro s
      have lead := h s.self
      simp only [Peer.lead, Lead.mk.injEq] at lead
      obtain ⟨role, term, log, indices, lockedEntryIndex⟩ := lead
      refine wp_modifySelf.mpr ⟨indices, fun leads ↦ ⟨role ▸ leads, term⟩, fun locked ↦ ?_⟩
      unfold Peer.LockInLog
      dsimp only
      rw [lockedEntryIndex, role, log, List.length_append]
      -- the locked entry stays in a log that grows
      exact locked.imp_right fun ⟨leads, hpos, hlt⟩ ↦ ⟨leads, hpos, Nat.lt_add_right _ hlt⟩
    | releases h =>
      intro s
      have lead := h s.self
      simp only [Peer.lead, Lead.mk.injEq] at lead
      obtain ⟨role, term, -, indices, unset⟩ := lead
      exact wp_modifySelf.mpr (.of_unset indices (fun leads ↦ ⟨role ▸ leads, term⟩) unset)
    | follows term h =>
      intro s
      have lead := h s.self
      simp only [Peer.lead, Lead.mk.injEq] at lead
      obtain ⟨follows, -, -, indices, unset⟩ := lead
      refine wp_modifySelf.mpr (.of_unset indices (fun leads ↦ ?_) unset)
      exact nomatch follows.symm.trans leads
  case updateTimeout =>
    intro o
    unfold updateTimeout
    refine tenure_modifySelf fun p ↦ ?_
    split <;> simp only [Peer.lead]
  case draw => exact fun s _ ↦ { Tenure.refl s with }
  case broadcast => exact fun _ ↦ Along.modify fun s ↦ { Tenure.refl s with }

/-! ### The calls -/

/-- Standing for election is no lead, and a peer that does not lead has no locked entry. -/
theorem tenure_startElection {s : EnclaveState} (waits : s.self.role ≠ .leader) :
    wp (startElection o) (fun _ t ↦ Tenure s t) s := by
  refine wp_bind_along walk_tenure.updateTimeout fun _ t ht ↦ ?_
  refine wp_bind_modifySelf fun u₁ h₁ ↦ wp_bind_modifySelf fun u hu ↦ ?_
  have htu : Tenure t u := by
    refine .of_not_leads (fun h ↦ waits (ht.leads h).1) ?_ ?_ ?_
    · rw [hu]
      exact fun h ↦ nomatch h
    · rw [hu, h₁]
      rfl
    · rw [hu, h₁]
      rfl
  refine wp_bind_along (R := Tenure) along_getSelf fun self v hv ↦ ?_
  refine wp_bind_along (Along.lift (R := Tenure) _) fun last w hw ↦ ?_
  refine wp_mono (walk_tenure.tell (fun _ ↦ rfl) w) fun _ x hx ↦ ?_
  exact (ht.trans htu).trans ((hv.trans hw).trans hx)

/-- No timeout makes a leader, acknowledges an entry or takes a held lock away. -/
theorem tenure_setTime (ticks : UInt64) : Along Tenure (setTime o ticks) := by
  refine along_getSelf.bind fun _ ↦ (tenure_modifySelf fun _ ↦ by rfl).bind fun _ ↦ along_getSelf.bind
    fun self ↦ Along.ite (fun s ↦ ?_) (Along.pure _)
  unfold timeout
  rw [wp_bind, wp_getSelf]
  refine wp_when (Tenure s) (fun _ ↦ ?_) (fun _ ↦ Tenure.refl s) fun t ht ↦ ?_
  · exact walk_tenure.leaderTimeout s
  · rw [wp_bind, wp_getSelf]
    refine wp_when (Tenure s) (fun hstands ↦ ?_) (fun _ ↦ ht) fun u hu ↦ ?_
    · exact wp_mono (tenure_startElection (by simp [hstands])) fun _ _ h ↦ ht.trans h
    · rw [wp_bind, wp_getSelf, wp_ite]
      refine ⟨fun _ ↦ ?_, fun _ ↦ wp_pure.mpr hu⟩
      have poll : Along Tenure (do
          updateTimeout o
          startPoll) := walk_tenure.updateTimeout.bind fun _ ↦ walk_tenure.startPoll
      exact wp_mono (poll u) fun _ _ h ↦ hu.trans h

/-- Entries are taken over by followers only, who have no locked entry to lose. -/
theorem tenure_acceptEntries {s : EnclaveState} {req : AppendReq}
    (follows : s.self.role = .follower) : wp (acceptEntries o req) (fun _ t ↦ Tenure s t) s := by
  refine wp_bind_modifySelf fun u₁ h₁ ↦ wp_bind_modifySelf fun u hu ↦ ?_
  have hsu : Tenure s u := by
    refine .of_not_leads (by simp [follows]) ?_ ?_ ?_
    · rw [hu, h₁]
      simp [Peer.removeElementsAfter, follows]
    · rw [hu, h₁]
      rfl
    · rw [hu, h₁]
      rfl
  have rest : Along Tenure (do
      let self ← getSelf
      if req.commitIndex > self.commitIndex then
        updateCommitIndex o (min req.commitIndex (self.log.length - 1))
      macAndSendMsg <| .appendRsp
        { target := req.source, source := self.id, term := self.term, prevTerm := req.prevTerm,
          prevIndex := req.prevIndex, success := true, lastIndex := self.log.length - 1 }) :=
    along_getSelf.bind fun _ ↦ Along.when (walk_tenure.updateCommitIndex _) (walk_tenure.send rfl)
  exact wp_mono (rest u) fun _ _ h ↦ hsu.trans h

/-- An append request makes no leader and acknowledges nothing. -/
theorem tenure_recvAppendReq (valid : Bool) (req : AppendReq) :
    Along Tenure (recvAppendReq o valid req) := by
  refine (walk_tenure.verifyMacAndOwnTerm _ _ _ _).bind fun verified ↦ Along.ite (fun s ↦ ?_)
    (Along.pure _)
  rw [wp_bind, wp_getSelf, wp_bind]
  refine wp_mono (verifyMsgTerm_spec _ _ s) fun verified t ht ↦ ?_
  rcases ht with ⟨rfl, rfl, -⟩ | ⟨rfl, rfl⟩
  · rw [if_pos rfl, wp_ite]
    refine ⟨fun follows ↦ ?_, fun _ ↦ wp_pure.mpr (Tenure.refl t)⟩
    refine wp_when (fun u ↦ Tenure t u ∧ u.self.role = .follower) (fun _ ↦ ?_)
      (fun _ ↦ ⟨Tenure.refl t, follows⟩) fun u ⟨htu, hu⟩ ↦ ?_
    · refine wp_mono (wp_and (walk_tenure.updateTimeout t) (aside_updateTimeout o t)) fun _ u hu ↦ ?_
      exact ⟨hu.1, (congrArg Node.role hu.2.node).trans follows⟩
    · rw [wp_ite]
      refine ⟨fun _ ↦ ?_, fun _ ↦ ?_⟩
      · exact wp_mono (tenure_macAndSendMsg _ u) fun _ _ h ↦ htu.trans h
      · exact wp_mono (tenure_acceptEntries hu) fun _ _ h ↦ htu.trans h
  · rw [if_neg Bool.false_ne_true]
    exact wp_pure.mpr { Tenure.refl s with }

/-- A poll request makes no leader and acknowledges nothing. -/
theorem tenure_recvPollReq (valid : Bool) (req : PollReq) : Along Tenure (recvPollReq valid req) :=
  (walk_tenure.verifyMacAndOwnTerm _ _ _ _).bind fun _ ↦ Along.ite (along_getSelf.bind fun _ ↦
    (walk_tenure.verifyMsgTerm _ rfl).bind fun _ ↦ Along.ite ((Along.lift _).bind fun _ ↦
      tenure_macAndSendMsg _) (Along.pure _)) (Along.pure _)

/-- A poll response makes a candidate at most. -/
theorem tenure_recvPollRsp (valid : Bool) (rsp : PollRsp) :
    Along Tenure (recvPollRsp o valid rsp) := by
  refine (walk_tenure.verifyMacAndOwnTerm _ _ _ _).bind fun verified ↦ Along.ite (fun s ↦ ?_)
    (Along.pure _)
  rw [wp_bind, wp_getSelf, wp_ite]
  refine ⟨fun follows ↦ ?_, fun _ ↦ wp_pure.mpr (Tenure.refl s)⟩
  refine wp_when (fun t ↦ Tenure s t ∧ t.self.role = .follower) (fun _ ↦ ?_)
    (fun _ ↦ ⟨Tenure.refl s, follows⟩) fun t ⟨hst, ht⟩ ↦ ?_
  · exact wp_modifySelf.mpr ⟨⟨rfl, fun h ↦ ⟨h, rfl⟩, id⟩, follows⟩
  · rw [wp_bind, wp_getSelf, wp_ite]
    refine ⟨fun _ ↦ ?_, fun _ ↦ wp_pure.mpr hst⟩
    exact wp_mono (tenure_startElection (by simp [ht])) fun _ _ h ↦ hst.trans h

/-! ### The two calls that matter -/

/-- What follows a verified message, for a peer that is as before or has just become a follower. -/
theorem tenure_verified (o : Oracle) {m : Message} {l : Letter} (letter : m.letter = some l)
    (valid : Bool) {s : EnclaveState} {body : Ecall Unit} {Q : EnclaveState → Prop}
    (still : ∀ t, Tenure s t → Q t)
    (waits : ∀ t, t.self.role = .follower → wp body (fun _ u ↦ Tenure t u) t)
    (hbody : l.target = s.self.id → l.term ≤ s.self.term → wp body (fun _ u ↦ Q u) s) :
    wp (do
      let verified ← verifyMacAndOwnTerm valid l.target l.source l.term
      if verified then body) (fun _ t ↦ Q t) s := by
  rw [wp_bind]
  refine wp_mono (wp_and (walk_tenure.verifyMacAndOwnTerm valid l.target l.source l.term s)
    (verifyMacAndOwnTerm_spec (o := o) (p := s.self) rfl letter valid s)) ?_
  rintro verified t ⟨hst, -, hv⟩
  rw [wp_ite]
  refine ⟨fun hver ↦ ?_, fun _ ↦ wp_pure.mpr (still t hst)⟩
  obtain ⟨target, hle, rfl | ⟨follows, -⟩⟩ := hv hver
  · exact hbody target hle
  · exact wp_mono (waits t follows) fun _ u hu ↦ still u (hst.trans hu)

/-- The response a leader enters as an acknowledgement. -/
def Peer.takesAck (p : Peer) (rsp : AppendRsp) : Bool :=
  uidsEqual rsp.target p.id && p.role == .leader && rsp.term ≤ p.term && rsp.success

/-- `recv_append_rsp` enters the index of an acknowledgement. -/
theorem recvAppendRsp_spec (valid : Bool) (rsp : AppendRsp) (s : EnclaveState) :
    wp (recvAppendRsp o valid rsp) (fun _ t ↦ Tenure s t ∨ s.self.takesAck rsp = true ∧
      Tenure { s with self := { s.self with
        indices := s.self.indices.insert rsp.source rsp.lastIndex } } t) s := by
  refine tenure_verified o (m := .appendRsp rsp) (l := ⟨rsp.source, rsp.target, rsp.term⟩) rfl valid
    (fun t ht ↦ Or.inl ht) (fun t follows ↦ ?_) fun target hle ↦ ?_
  · rw [wp_bind, wp_getSelf, if_neg (by simp [follows])]
    exact wp_pure.mpr (Tenure.refl t)
  · rw [wp_bind, wp_getSelf, wp_ite]
    refine ⟨fun leads ↦ ?_, fun _ ↦ wp_pure.mpr (Or.inl (Tenure.refl s))⟩
    rw [wp_ite]
    constructor
    · intro success
      have takes : s.self.takesAck rsp = true := by
        unfold Peer.takesAck
        dsimp only at target hle
        simp [target, leads, hle, success]
      refine wp_bind_modifySelf fun t ht ↦ ?_
      have rest : Along Tenure (do
          let self ← getSelf
          let index ← self.largestMajorityIndex
          let entry ← self.entryAt index
          if entry.term = self.term ∧ index > self.commitIndex then updateCommitIndex o index) :=
        along_getSelf.bind fun self ↦ (Along.lift _).bind fun _ ↦ (Along.lift _).bind fun _ ↦
          Along.ite (walk_tenure.updateCommitIndex _) (Along.pure _)
      exact wp_mono (rest t) fun _ _ h ↦ Or.inr ⟨takes, ht ▸ h⟩
    · intro _
      exact wp_mono (((Along.lift _).bind fun _ ↦ tenure_macAndSendMsg _) s) fun _ _ h ↦ Or.inl h

/-- The vote that makes a candidate the leader. -/
def Peer.electedBy (p : Peer) (rsp : ElectionRsp) : Bool :=
  uidsEqual rsp.target p.id && p.role == .candidate && rsp.term ≤ p.term && rsp.success &&
    p.clusterSize / 2 < p.electionVotes + 1

/-- A new leader keeps its indices; the unresolved lock it finds is in its log. -/
theorem becomeLeader_lockInLog (s : EnclaveState) : wp (becomeLeader o) (fun _ t ↦
    t.self.indices = s.self.indices ∧ t.self.LockInLog) s := by
  refine wp_bind_modifySelf fun t ht ↦ ?_
  have hindices : t.self.indices = s.self.indices := by rw [ht]
  rw [wp_bind, wp_getSelf, wp_bind, wp_lift]
  intro found hfound
  have lead {u : EnclaveState} (hu : u.self.indices = s.self.indices)
      (hlock : { u.self with role := .leader }.LockInLog) : wp (do
        modifySelf fun p ↦
          { p with role := .leader, leaderMap := p.leaderMap.insert p.clusterEvent p.id }
        updateTimeout o) (fun _ t ↦ t.self.indices = s.self.indices ∧ t.self.LockInLog) u := by
    refine wp_bind_modifySelf fun v hv ↦ wp_mono (walk_tenure.updateTimeout v) fun _ w hw ↦ ?_
    rw [hw.indices, hv]
    exact ⟨hu, hw.locked (hv ▸ hlock)⟩
  cases found with
  | none => exact wp_bind_modifySelf fun u hu ↦ lead (hu ▸ hindices) (Or.inl (by rw [hu]))
  | some index =>
    obtain ⟨-, htest⟩ := Peer.firstIndex_eq_some hfound
    refine wp_bind_modifySelf fun u hu ↦ lead (hu ▸ hindices) (Or.inr ⟨rfl, ?_, ?_⟩)
    · rw [hu]
      exact Int.natCast_nonneg index
    · rw [hu]
      cases he : t.self.entryAt index with
      | error =>
        rw [he] at htest
        exact nomatch htest
      | ok e => exact (List.getElem?_eq_some_iff.mp (entryAt_ok he)).1

/-- `recv_election_rsp` makes a candidate the leader, who keeps its indices and looks for an
unresolved lock. -/
theorem recvElectionRsp_spec (valid : Bool) (rsp : ElectionRsp) (s : EnclaveState) :
    wp (recvElectionRsp o valid rsp) (fun _ t ↦ Tenure s t ∨ s.self.electedBy rsp = true ∧
      t.self.indices = s.self.indices ∧ t.self.LockInLog) s := by
  refine tenure_verified o (m := .electionRsp rsp) (l := ⟨rsp.source, rsp.target, rsp.term⟩)
    rfl valid (fun t ht ↦ Or.inl ht) (fun t follows ↦ ?_) fun target hle ↦ ?_
  · rw [wp_bind, wp_getSelf, if_neg (by simp [follows])]
    exact wp_pure.mpr (Tenure.refl t)
  · rw [wp_bind, wp_getSelf, wp_ite]
    refine ⟨fun stands ↦ ?_, fun _ ↦ wp_pure.mpr (Or.inl (Tenure.refl s))⟩
    rw [wp_ite]
    refine ⟨fun success ↦ ?_, fun _ ↦ wp_pure.mpr (Or.inl (Tenure.refl s))⟩
    refine wp_bind_modifySelf fun t ht ↦ ?_
    have hst : Tenure s t := by
      rw [ht]
      exact { Tenure.refl s with }
    rw [wp_bind, wp_getSelf, wp_ite]
    refine ⟨fun quorum ↦ ?_, fun _ ↦ wp_pure.mpr (Or.inl hst)⟩
    have elected : s.self.electedBy rsp = true := by
      rw [ht] at quorum
      unfold Peer.electedBy
      dsimp only at target hle quorum
      simp [target, stands, hle, success, quorum]
    refine wp_bind_along walk_tenure.heartbeat fun _ u hu ↦ ?_
    refine wp_mono (becomeLeader_lockInLog u) fun _ v ⟨hindices, hlock⟩ ↦ ?_
    exact Or.inr ⟨elected, hindices.trans (hst.trans hu).indices, hlock⟩

end

end TrustedDcr.Enclave
