import TrustedDcr.Enclave.Aborts

/-!
# Parts of a peer that a call leaves alone

Most helpers write to the routing tables, the timers and the votes, if to `self` at
all. So do most calls, unless the peer takes over a new term, and then it does not
lead. `Same` says of any part of a peer that it is unchanged, `Led` that it is
unchanged where the peer leads afterwards.
-/

namespace TrustedDcr.Enclave
open TrustedDcr.Msg TrustedDcr.Dcr TrustedDcr.Theory

variable {o : Oracle} {β : Type}

/-- The part of the peer is the same. -/
def Same (f : Peer → β) (s t : EnclaveState) : Prop := f t.self = f s.self

instance (f : Peer → β) : Std.Refl (Same f) := ⟨fun _ ↦ rfl⟩
instance (f : Peer → β) : IsTrans EnclaveState (Same f) := ⟨fun _ _ _ st tu ↦ Eq.trans tu st⟩

/-- The part has to do neither with routing nor with timers or votes. -/
structure Apart (f : Peer → β) : Prop where
  leaderMap : ∀ p m, f { p with leaderMap := m } = f p
  peerToEventMap : ∀ p m, f { p with peerToEventMap := m } = f p
  timers : ∀ p tMin t, f { p with tMin := tMin, t := t } = f p
  pollVotes : ∀ p n, f { p with pollVotes := n } = f p
  endorsement : ∀ p x, f { p with endorsement := x } = f p

/-! ### Helpers -/

section
variable (f : Peer → β)

/-- An assignment that leaves the part alone. -/
theorem same_modifySelf {g : Peer → Peer} (h : ∀ p, f (g p) = f p) :
    Along (Same f) (modifySelf g) := fun s ↦ wp_modifySelf.mpr (h s.self)

/-- Broadcasting changes no part of the peer. -/
theorem same_macAndBroadcastMsgs (msgs : List Message) :
    Along (Same f) (macAndBroadcastMsgs msgs) := fun _ ↦ wp_macAndBroadcastMsgs.mpr rfl

/-- Sending changes no part of the peer. -/
theorem same_macAndSendMsg (msg : Message) : Along (Same f) (macAndSendMsg msg) :=
  fun _ ↦ wp_macAndSendMsg.mpr rfl

/-- Drawing an identifier changes no part of the peer. -/
theorem same_generateRandomUid : Along (Same f) (generateRandomUid o) := by
  intro s
  unfold generateRandomUid
  rw [wp_bind, wp_modify, wp_pure]
  rfl

/-- Refusing an outdated term changes no part of the peer. -/
theorem same_verifyMsgTerm (term : Nat) (rsp : Message) :
    Along (Same f) (verifyMsgTerm term rsp) :=
  along_getSelf.bind fun _ ↦
    Along.ite ((same_macAndSendMsg f rsp).bind fun _ ↦ Along.pure _) (Along.pure _)

/-- A heartbeat changes no part of the peer. -/
theorem same_heartbeat : Along (Same f) heartbeat :=
  along_getSelf.bind fun _ ↦ Along.ite
    ((Along.lift _).bind fun _ ↦ same_macAndBroadcastMsgs f _) (Along.pure _)

/-- Calling a poll changes no part of the peer. -/
theorem same_startPoll : Along (Same f) startPoll :=
  along_getSelf.bind fun _ ↦ Along.ite
    ((Along.lift _).bind fun _ ↦ same_macAndBroadcastMsgs f _) (Along.pure _)

/-- Sending the last entry changes no part of the peer. -/
theorem same_broadcastLast : Along (Same f) broadcastLast := by
  intro s
  refine wp_mono broadcastLast_spec ?_
  rintro _ _ ⟨ms, -, rfl⟩
  rfl

variable {f} (apart : Apart f)
include apart

/-- Looking a leader up leaves a part apart from routing alone. -/
theorem Apart.leaderMapAt (event : Uid) : Along (Same f) (leaderMapAt event) := by
  unfold Enclave.leaderMapAt
  refine along_getSelf.bind fun self ↦ ?_
  cases self.leaderMap[event]? with
  | some leader => exact Along.pure _
  | none => exact (same_modifySelf f fun p ↦ apart.leaderMap p _).bind fun _ ↦ Along.pure _

/-- Looking a peer's event up leaves a part apart from routing alone. -/
theorem Apart.peerToEventMapAt (peer : Uid) : Along (Same f) (peerToEventMapAt peer) := by
  intro s _ t ht
  rw [peerToEventMapAt_eq] at ht
  obtain ⟨⟩ := ht
  exact apart.peerToEventMap s.self _

/-- Setting the timers leaves a part apart from them alone. -/
theorem Apart.updateTimeout : Along (Same f) (updateTimeout o) := by
  refine same_modifySelf f fun p ↦ ?_
  split
  · exact apart.timers p p.tMin _
  · exact apart.timers p _ _

end

/-! ### Calls -/

/-- A peer that leads afterwards has led before, and the part is the same. -/
def Led (f : Peer → β) (s t : EnclaveState) : Prop :=
  t.self.role = .leader → s.self.role = .leader ∧ f t.self = f s.self

namespace Led

variable {f : Peer → β} {s t : EnclaveState}

/-- Where the peer does not lead afterwards. -/
theorem of_not_leads (h : t.self.role ≠ .leader) : Led f s t := fun leads ↦ absurd leads h

/-- Where the role and the part are the same. -/
theorem of_same (h : Same (fun p ↦ (p.role, f p)) s t) : Led f s t := by
  intro leads
  simp only [Same, Prod.mk.injEq] at h
  exact ⟨h.1 ▸ leads, h.2⟩

instance : Std.Refl (Led f) := ⟨fun _ ↦ of_same rfl⟩

instance : IsTrans EnclaveState (Led f) := ⟨by
  intro s t u st tu leads
  obtain ⟨leads, htu⟩ := tu leads
  obtain ⟨leads, hst⟩ := st leads
  exact ⟨leads, htu.trans hst⟩⟩

/-- Where the role and the part stay the same. -/
theorem of_along {α : Type} {x : Ecall α} (h : Along (Same fun p ↦ (p.role, f p)) x) :
    Along (Led f) x := fun s ↦ wp_mono (h s) fun _ _ ↦ of_same

end Led

section
variable {f : Peer → β}

/-- A peer that takes over a new term follows. -/
theorem led_verifyMacAndOwnTerm (valid : Bool) (target source : Uid) (term : Nat) :
    Along (Led f) (verifyMacAndOwnTerm valid target source term) := by
  unfold verifyMacAndOwnTerm
  refine Along.ite (Along.pure _) (along_getSelf.bind fun self ↦
    Along.ite (Along.pure _) (Along.when ?_ (Along.pure _)))
  exact fun s ↦ wp_modifySelf.mpr (Led.of_not_leads (by simp))

/-- A candidate does not lead, and keeps its log. -/
theorem stands_startElection (s : EnclaveState) : wp (startElection o) (fun _ t ↦
    t.self.role = .candidate ∧ t.self.log = s.self.log) s := by
  have timers : Apart Peer.log := ⟨fun _ _ ↦ rfl, fun _ _ ↦ rfl, fun _ _ _ ↦ rfl, fun _ _ ↦ rfl,
    fun _ _ ↦ rfl⟩
  unfold startElection
  refine wp_bind_along timers.updateTimeout fun _ t ht ↦
    wp_bind_modifySelf fun u hu ↦ wp_bind_modifySelf fun v hv ↦ ?_
  rw [wp_bind, wp_getSelf, wp_bind, wp_lift]
  intro last _
  rw [wp_macAndBroadcastMsgs, hv, hu]
  exact ⟨rfl, ht⟩

/-- Whoever stands for election does not lead. -/
theorem led_startElection : Along (Led f) (startElection o) := fun s ↦
  wp_mono (stands_startElection s) fun _ _ h ↦ Led.of_not_leads (by simp [h.1])

/-- A follower takes over entries as a follower. -/
theorem led_acceptEntries {req : AppendReq} {s : EnclaveState}
    (follows : s.self.role = .follower) : wp (acceptEntries o req) (fun _ t ↦ Led f s t) s := by
  unfold acceptEntries
  refine wp_bind_modifySelf fun t ht ↦ wp_bind_modifySelf fun u hu ↦ ?_
  have hrole : u.self.role = .follower := by
    rw [hu, ht]
    exact follows
  rw [wp_bind, wp_getSelf]
  refine wp_when (fun v ↦ v.self.role = .follower) (fun _ ↦ ?_) (fun _ ↦ hrole) fun v hv ↦ ?_
  · refine wp_mono (updateCommitIndex_spec o _ u) ?_
    rintro _ _ ⟨v, executes, -, rfl⟩
    exact (congrArg Node.role executes.node).trans hrole
  · exact wp_macAndSendMsg.mpr (Led.of_not_leads (by simp [hv]))

/-- A poll request changes no part of a leader. -/
theorem led_recvPollReq (valid : Bool) (req : PollReq) :
    Along (Led f) (recvPollReq valid req) := by
  unfold recvPollReq
  refine (led_verifyMacAndOwnTerm _ _ _ _).bind fun _ ↦ Along.ite (Led.of_along ?_) (Along.pure _)
  refine along_getSelf.bind fun _ ↦ (same_verifyMsgTerm _ _ _).bind fun _ ↦
    Along.ite ?_ (Along.pure _)
  exact (Along.lift _).bind fun _ ↦ same_macAndSendMsg _ _

/-- A history request changes no part of a leader. -/
theorem led_recvLogReq (valid : Bool) (req : LogReq) :
    Along (Led f) (recvLogReq valid req) := by
  apply Led.of_along
  unfold recvLogReq
  refine along_getSelf.bind fun self ↦ Along.ite (Along.pure _) (Along.ite (Along.pure _)
    (Along.ite ?_ (same_macAndSendMsg _ _)))
  exact (Along.mapM fun _ _ ↦ Along.lift _).bind fun _ ↦ same_macAndSendMsg _ _

variable (apart : Apart f)
include apart

/-- The part with the role. -/
theorem Apart.withRole : Apart fun p ↦ (p.role, f p) where
  leaderMap p m := by simp [apart.leaderMap]
  peerToEventMap p m := by simp [apart.peerToEventMap]
  timers p tMin t := by simp [apart.timers]
  pollVotes p n := by simp [apart.pollVotes]
  endorsement p x := by simp [apart.endorsement]

/-- A peer that still leads has had no append request to take in. -/
theorem Apart.led_recvAppendReq (valid : Bool) (req : AppendReq) :
    Along (Led f) (recvAppendReq o valid req) := by
  unfold recvAppendReq
  refine (led_verifyMacAndOwnTerm _ _ _ _).bind fun verified ↦ Along.ite ?_ (Along.pure _)
  intro s
  rw [wp_bind, wp_getSelf]
  refine wp_bind_along (same_verifyMsgTerm (fun p ↦ (p.role, f p)) _ _) fun verified t ht ↦ ?_
  have stop : Led f s t := Led.of_same ht
  rw [wp_ite]
  refine ⟨fun _ ↦ ?_, fun _ ↦ wp_pure.mpr stop⟩
  rw [wp_ite]
  refine ⟨fun follows ↦ ?_, fun _ ↦ wp_pure.mpr stop⟩
  refine wp_when (Same (fun p ↦ (p.role, f p)) s) (fun _ ↦ ?_) (fun _ ↦ ht) fun u hu ↦ ?_
  · exact wp_mono (apart.withRole.updateTimeout t) fun _ _ h ↦ IsTrans.trans _ _ _ ht h
  · have hsu : Led f s u := Led.of_same hu
    rw [wp_ite]
    constructor
    · intro _
      exact wp_macAndSendMsg.mpr hsu
    · intro _
      have hrole : u.self.role = .follower := (congrArg Prod.fst hu).trans follows
      exact wp_mono (led_acceptEntries hrole) fun _ _ h ↦ IsTrans.trans _ _ _ hsu h

/-- A poll response makes nobody lead, and leaves a leader's part alone. -/
theorem Apart.led_recvPollRsp (valid : Bool) (rsp : PollRsp) :
    Along (Led f) (recvPollRsp o valid rsp) := by
  unfold recvPollRsp
  refine (led_verifyMacAndOwnTerm _ _ _ _).bind fun _ ↦ Along.ite ?_ (Along.pure _)
  refine along_getSelf.bind fun _ ↦ Along.ite ?_ (Along.pure _)
  refine Along.when (Led.of_along (same_modifySelf _ fun p ↦ apart.withRole.pollVotes p _)) ?_
  exact along_getSelf.bind fun _ ↦ Along.ite led_startElection (Along.pure _)

/-- A peer that still leads has voted for no other. -/
theorem Apart.led_recvElectionReq (valid : Bool) (req : ElectionReq) :
    Along (Led f) (recvElectionReq valid req) := by
  unfold recvElectionReq
  refine (led_verifyMacAndOwnTerm _ _ _ _).bind fun _ ↦ Along.ite (Led.of_along ?_) (Along.pure _)
  refine along_getSelf.bind fun _ ↦ (same_verifyMsgTerm _ _ _).bind fun _ ↦
    Along.ite (Along.ite ?_ (Along.pure _)) (Along.pure _)
  refine (Along.lift _).bind fun _ ↦ Along.when ?_ (same_macAndSendMsg _ _)
  exact same_modifySelf _ fun p ↦ apart.withRole.endorsement p _

/-- A history response leaves a leader's part alone. -/
theorem Apart.led_recvLogRsp (valid : Bool) (rsp : LogRsp) :
    Along (Led f) (recvLogRsp valid rsp) := by
  apply Led.of_along
  unfold recvLogRsp
  refine Along.ite ((apart.withRole.peerToEventMapAt _).bind fun event ↦ Along.ite ?_ ?_)
    (Along.pure _)
  · exact (same_modifySelf _ fun p ↦ apart.withRole.leaderMap p _).bind fun _ ↦
      along_getSelf.bind fun _ ↦ same_macAndSendMsg _ _
  · exact Along.modify fun _ ↦ rfl

/-- Starting an attempt leaves a leader's part alone. -/
theorem Apart.led_execute (eventId : Uid) : Along (Led f) (execute o eventId) :=
  Led.of_along <| (apart.withRole.leaderMapAt _).bind fun _ ↦ along_getSelf.bind fun _ ↦
    (same_generateRandomUid _).bind fun _ ↦ same_macAndSendMsg _ _

/-- Asking for the history leaves a leader's part alone. -/
theorem Apart.led_getHistory : Along (Led f) getHistory := by
  apply Led.of_along
  unfold getHistory
  refine along_getSelf.bind fun self ↦ Along.bind (Along.mapM fun event _ ↦ ?_)
    fun _ ↦ same_macAndBroadcastMsgs _ _
  exact (apart.withRole.leaderMapAt event).bind fun _ ↦ Along.pure _

end

end TrustedDcr.Enclave
