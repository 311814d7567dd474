import TrustedDcr.Enclave.Bounds
import TrustedDcr.Enclave.Parts

/-!
# What a leader's calls are made of

Besides its bookkeeping, a leader appends entries of its term, commits up to one, and
starts aborts. `AlongCalls` says that a relation does not mind the bookkeeping and holds
where an entry is appended; it then holds along the calls for commands, and where a
commitment or an abort keeps to it, along those that commit or abort. Only an election
makes a new leader.
-/

namespace TrustedDcr.Enclave
open TrustedDcr.Msg TrustedDcr.Dcr TrustedDcr.Theory

variable {o : Oracle} {β : Type}

/-- The part has nothing to do with a leader's bookkeeping. -/
structure Beside (f : Peer → β) : Prop extends Apart f where
  workflow : ∀ p w, f { p with workflow := w } = f p
  missingResp : ∀ p m, f { p with missingResp := m } = f p
  lockedEvents : ∀ p x, f { p with lockedEvents := x } = f p
  indices : ∀ p m, f { p with indices := m } = f p
  electionVotes : ∀ p n, f { p with electionVotes := n } = f p
  role : ∀ {p q}, f p = f q → p.role = q.role
  term : ∀ {p q}, f p = f q → p.term = q.term

/-- The relation holds where a leader's part stays the same, and where it appends an entry. -/
structure AlongCalls (o : Oracle) (f : Peer → β) (R : EnclaveState → EnclaveState → Prop) : Prop where
  beside : Beside f
  led : ∀ {s t}, Led f s t → R s t
  append : ∀ {s : EnclaveState} {entry : Entry}, s.self.role = .leader →
    entry.term = s.self.term → wp (appendToLog o entry) (fun _ t ↦ R s t) s

namespace Beside

variable {f : Peer → β} (beside : Beside f)
include beside

/-- Where the part is the same, so are role and term. -/
theorem led_of_same {s t : EnclaveState} (h : Same f s t) : Led f s t :=
  fun leads ↦ ⟨(beside.role h).symm.trans leads, h⟩

/-- Commands are sent and filed beside the part. -/
theorem sendCommands (tag : CommandTag) (events : List Uid) :
    Along (Same f) (sendCommands o tag events) := by
  intro s
  refine wp_mono (filed_sendCommands tag events s) ?_
  rintro _ _ ⟨_, ⟨⟨leaders, rfl⟩, -⟩, rfl⟩
  exact (beside.missingResp { s.self with leaderMap := leaders } _).trans
    (beside.leaderMap s.self leaders)

end Beside

namespace AlongCalls

variable {f : Peer → β} {R : EnclaveState → EnclaveState → Prop} (h : AlongCalls o f R)
include h

/-- Where the part is the same. -/
theorem same {s t : EnclaveState} (hst : Same f s t) : R s t := h.led (h.beside.led_of_same hst)

/-- A leader whose part stays the same, its role included, still leads. -/
theorem leads {s t : EnclaveState} (hst : Same f s t) (leads : s.self.role = .leader) :
    t.self.role = .leader := (h.beside.role hst).trans leads

variable {s : EnclaveState}

/-- The entry of a command, appended by a leader. -/
theorem appendCommand {req : CommandReq} {tag : CommandTag} (leads : s.self.role = .leader) :
    wp (appendCommand o req tag) (fun _ t ↦ R s t) s := by
  unfold Enclave.appendCommand
  rw [wp_bind, wp_getSelf]
  exact h.append leads rfl

variable [IsTrans EnclaveState R]

private theorem admitLock {req : CommandReq} (leads : s.self.role = .leader) :
    wp (admitLock o req) (fun _ t ↦ R s t) s := by
  have answer (msg : Message) (t : EnclaveState) : wp (macAndSendMsg msg) (fun _ u ↦ R t u) t :=
    wp_mono (same_macAndSendMsg f msg t) fun _ _ ↦ h.same
  unfold Enclave.admitLock
  rw [wp_bind, wp_getSelf, wp_bind, wp_lift]
  intro found _
  rw [wp_ite]
  refine ⟨fun _ ↦ answer _ s, fun _ ↦ ?_⟩
  rw [wp_ite]
  refine ⟨fun _ ↦ ?_, fun _ ↦ h.appendCommand leads⟩
  refine wp_bind_along (same_modifySelf f fun p ↦ h.beside.workflow p _) fun _ t ht ↦ ?_
  have hrole := h.leads ht leads
  have hst : R s t := h.same ht
  rw [wp_ite]
  refine ⟨fun _ ↦ wp_mono (answer _ t) fun _ _ htu ↦ IsTrans.trans _ _ _ hst htu, fun _ ↦ ?_⟩
  have append (tag : CommandTag) : wp (Enclave.appendCommand o req tag) (fun _ u ↦ R s u) t :=
    wp_mono (h.appendCommand hrole) fun _ _ htu ↦ IsTrans.trans _ _ _ hst htu
  rw [wp_ite]
  exact ⟨fun _ ↦ append _, fun _ ↦ append _⟩

/-- A command request, appended or answered, moves along the relation. -/
theorem recvCommandReq (valid : Bool) (req : CommandReq) :
    wp (recvCommandReq o valid req) (fun _ t ↦ R s t) s := by
  have answer (msg : Message) : wp (macAndSendMsg msg) (fun _ t ↦ R s t) s :=
    wp_mono (same_macAndSendMsg f msg s) fun _ _ ↦ h.same
  have stop : wp (pure ⟨⟩ : Ecall Unit) (fun _ t ↦ R s t) s := wp_pure.mpr (h.same rfl)
  unfold Enclave.recvCommandReq
  rw [wp_bind, wp_getSelf, wp_ite]
  refine ⟨fun _ ↦ stop, fun _ ↦ ?_⟩
  rw [wp_ite]
  refine ⟨fun _ ↦ stop, fun _ ↦ ?_⟩
  rw [wp_ite]
  refine ⟨fun _ ↦ answer _, fun leads ↦ ?_⟩
  have leads : s.self.role = .leader := by simpa using leads
  split
  · rw [wp_ite]
    exact ⟨fun _ ↦ answer _, fun _ ↦ stop⟩
  · rw [wp_ite]
    exact ⟨fun _ ↦ h.admitLock leads, fun _ ↦ h.appendCommand leads⟩

/-- With the last lock the execution is appended. -/
theorem countLock {rsp : CommandRsp} (leads : s.self.role = .leader) :
    wp (countLock o rsp) (fun _ t ↦ R s t) s := by
  unfold Enclave.countLock
  refine wp_bind_along (h.beside.peerToEventMapAt _) fun event t ht ↦ ?_
  refine wp_bind_along (same_modifySelf f fun p ↦ h.beside.lockedEvents p _) fun _ u hu ↦ ?_
  have hsu : Same f s u := IsTrans.trans _ _ _ ht hu
  rw [wp_bind, wp_getSelf, wp_ite]
  refine ⟨fun _ ↦ ?_, fun _ ↦ wp_pure.mpr (h.same hsu)⟩
  refine wp_bind_along (along_getSelf.bind fun _ ↦ h.beside.sendCommands _ _) fun _ v hv ↦ ?_
  have hsv : Same f s v := IsTrans.trans _ _ _ hsu hv
  rw [wp_bind]
  refine wp_mono (h.append (h.leads hsv leads) (h.beside.term hv).symm) fun _ w hvw ↦ ?_
  refine wp_mono (same_modifySelf f (fun p ↦ h.beside.lockedEvents p _) w) fun _ x hx ↦ ?_
  exact IsTrans.trans _ _ _ (h.same hsv) (IsTrans.trans _ _ _ hvw (h.same hx))

private theorem recvLockRsp {rsp : CommandRsp} (leads : s.self.role = .leader) :
    wp (recvLockRsp o rsp) (fun _ t ↦ R s t) s := by
  unfold Enclave.recvLockRsp
  rw [wp_bind, wp_getSelf]
  split
  · exact wp_pure.mpr (h.same rfl)
  · next lockIndex _ =>
    rw [wp_bind, wp_lift]
    intro resolved _
    rw [wp_ite]
    refine ⟨fun _ ↦ ?_, fun _ ↦ h.countLock leads⟩
    have answer : Along (Same f) (answerResolved o rsp lockIndex) := by
      unfold answerResolved
      refine along_getSelf.bind fun _ ↦ (Along.lift _).bind fun _ ↦
        Along.ite (Along.bind ?_ fun _ ↦ same_macAndSendMsg f _) (Along.pure _)
      exact same_modifySelf f fun p ↦ h.beside.missingResp p _
    exact wp_mono (answer s) fun _ _ ↦ h.same

/-- A response to a command, unless it is an ABORT for which this is left to show. -/
theorem recvCommandRsp (valid : Bool) (rsp : CommandRsp)
    (abort : s.self.Handles valid rsp → rsp.tag.type = .abort → ∀ t, Same f s t →
      t.self = { s.self with missingResp := s.self.cleared rsp } →
      wp (recvAbortRsp o rsp) (fun _ u ↦ R t u) t) :
    wp (recvCommandRsp o valid rsp) (fun _ t ↦ R s t) s := by
  by_cases handles : s.self.Handles valid rsp
  · unfold wp
    rw [recvCommandRsp_of_handles handles]
    have leads : s.self.role = .leader := handles.2.2.1
    let t : EnclaveState := { s with self := { s.self with missingResp := s.self.cleared rsp } }
    have ht : Same f s t := h.beside.missingResp s.self _
    have after {x : Ecall Unit} (hx : wp x (fun _ u ↦ R t u) t) : wp x (fun _ u ↦ R s u) t :=
      wp_mono hx fun _ _ htu ↦ IsTrans.trans _ _ _ (h.same ht) htu
    cases type : rsp.tag.type with
    | abort => exact after (abort handles type t ht rfl)
    | exec =>
      exact after (wp_modifySelf.mpr (h.same (h.beside.missingResp t.self _)))
    | lock => exact after (h.recvLockRsp leads)
    | checkpoint => exact wp_pure.mpr (h.same ht)
  · by_cases redirects : s.self.Redirects valid rsp
    · unfold wp
      rw [recvCommandRsp_of_redirects redirects]
      have redirect : Along (Same f) (recvRedirect rsp) := by
        unfold recvRedirect
        refine (h.beside.peerToEventMapAt _).bind fun event ↦
          Along.bind (same_modifySelf f fun p ↦ h.beside.leaderMap p _) fun _ ↦
          along_getSelf.bind fun self ↦ ?_
        split
        · exact same_modifySelf f fun p ↦ h.beside.missingResp p _
        · exact Along.pure _
      exact fun _ _ ht ↦ h.same (redirect s _ _ ht)
    · unfold wp
      rw [recvCommandRsp_of_ignores handles redirects]
      rintro _ _ ⟨⟩
      exact h.same rfl

/-- A leader commits when a quorum has acknowledged an entry of its term. -/
theorem recvAppendRsp (commit : ∀ {t : EnclaveState} {index : Nat} {e : Entry},
      t.self.role = .leader → t.self.log[index]? = some e → e.term = t.self.term →
      t.self.commitIndex < index → wp (updateCommitIndex o index) (fun _ u ↦ R t u) t)
    (valid : Bool) (rsp : AppendRsp) : wp (recvAppendRsp o valid rsp) (fun _ t ↦ R s t) s := by
  unfold Enclave.recvAppendRsp
  refine wp_bind_along (R := Led f) (led_verifyMacAndOwnTerm _ _ _ _) fun verified t ht ↦ ?_
  have hst : R s t := h.led ht
  rw [wp_ite]
  refine ⟨fun _ ↦ ?_, fun _ ↦ wp_pure.mpr hst⟩
  rw [wp_bind, wp_getSelf, wp_ite]
  refine ⟨fun leads ↦ ?_, fun _ ↦ wp_pure.mpr hst⟩
  rw [wp_ite]
  constructor
  · intro _
    refine wp_bind_along (same_modifySelf f fun p ↦ h.beside.indices p _) fun _ u hu ↦ ?_
    have hsu : R s u := IsTrans.trans _ _ _ hst (h.same hu)
    rw [wp_bind, wp_getSelf, wp_bind, wp_lift]
    intro index _
    rw [wp_bind, wp_lift]
    intro entry hentry
    rw [wp_ite]
    refine ⟨fun ⟨term, ahead⟩ ↦ ?_, fun _ ↦ wp_pure.mpr hsu⟩
    have committed := commit (h.leads hu leads) (entryAt_ok hentry) term ahead
    exact wp_mono committed fun _ _ huv ↦ IsTrans.trans _ _ _ hsu huv
  · intro _
    rw [wp_bind, wp_lift]
    intro prev _
    refine wp_mono (same_macAndSendMsg f _ t) fun _ u htu ↦ ?_
    exact IsTrans.trans _ _ _ hst (h.same htu)

end AlongCalls

/-! ### Elections -/

/-- The vote elects the candidate. `src/enclave/enclave.cpp:855–873`. -/
def Peer.wins (p : Peer) (rsp : ElectionRsp) : Bool :=
  uidsEqual rsp.target p.id && decide (rsp.term ≤ p.term) && p.role == .candidate && rsp.success &&
    decide (p.clusterSize / 2 < p.electionVotes + 1)

/-- Whoever leads after a vote has led before, or the vote has elected it. -/
theorem led_recvElectionRsp {f : Peer → β} (votes : ∀ p n, f { p with electionVotes := n } = f p)
    (valid : Bool) (rsp : ElectionRsp) (s : EnclaveState) : wp (recvElectionRsp o valid rsp) (fun _ t ↦
      Led f s t ∨ s.self.wins rsp = true ∧ ∃ ms, becomeLeader o
        { s with
          self := { s.self with electionVotes := s.self.electionVotes + 1 }
          sent := s.sent ++ ms } = .ok (⟨⟩, t)) s := by
  unfold recvElectionRsp
  rw [wp_bind]
  refine wp_mono (verifyMacAndOwnTerm_cases valid _ _ _ s) fun verified t ht ↦ ?_
  have stop : Led f s t := by
    obtain ⟨rfl, -⟩ | rfl := ht
    · exact Std.Refl.refl _
    · exact Led.of_not_leads (by simp)
  rw [wp_ite]
  refine ⟨fun checked ↦ ?_, fun _ ↦ wp_pure.mpr (Or.inl stop)⟩
  rw [wp_bind, wp_getSelf, wp_ite]
  refine ⟨fun stands ↦ ?_, fun _ ↦ wp_pure.mpr (Or.inl stop)⟩
  -- A candidate has not just taken over a later term.
  obtain ⟨rfl, hverified⟩ | rfl := ht
  · rw [wp_ite]
    refine ⟨fun granted ↦ ?_, fun _ ↦ wp_pure.mpr (Or.inl stop)⟩
    refine wp_bind_modifySelf fun u hu ↦ ?_
    rw [wp_bind, wp_getSelf, wp_ite]
    constructor
    · intro quorum
      have elects : t.self.wins rsp = true := by
        obtain ⟨target, term⟩ := hverified checked
        rw [hu] at quorum
        simp only [gt_iff_lt] at quorum
        unfold Peer.wins
        simp [target, term, stands, granted, quorum]
      rw [wp_bind]
      refine wp_mono (@heartbeat_spec none u) ?_
      rintro _ _ ⟨ms, rfl, -⟩
      intro _ v hv
      rw [hu] at hv
      exact Or.inr ⟨elects, ms, hv⟩
    · intro _
      refine wp_pure.mpr (Or.inl (Led.of_same ?_))
      rw [hu]
      exact Prod.ext rfl (votes t.self _)
  · exact nomatch stands

/-! ### Timeouts -/

/-- A timeout makes a leader send its requests again and append a checkpoint, and a follower stand
for election. -/
theorem Apart.along_setTime {f : Peer → β} (apart : Apart f)
    (now : ∀ p x, f { p with now := x } = f p)
    (retriedResponses : ∀ p x, f { p with retriedResponses := x } = f p)
    (lastCheckpoint : ∀ p x, f { p with lastCheckpoint := x } = f p)
    {R : EnclaveState → EnclaveState → Prop} [Std.Refl R] [IsTrans EnclaveState R]
    (led : ∀ {s t}, Led f s t → R s t)
    (append : ∀ {entry : Entry}, entry.tag.type = .checkpoint → Along R (appendToLog o entry))
    (ticks : UInt64) : Along R (setTime o ticks) := by
  have same {α : Type} {x : Ecall α} (h : Along (Same fun p ↦ (p.role, f p)) x) : Along R x :=
    fun s ↦ wp_mono (Led.of_along h s) fun _ _ ↦ led
  have assign {g : Peer → Peer} (role : ∀ p, (g p).role = p.role) (part : ∀ p, f (g p) = f p) :
      Along R (modifySelf g) := same (same_modifySelf _ fun p ↦ by rw [role, part])
  have retry (r : Uid × CommandReq) : Along R (retryRequest o r.1 r.2) :=
    same <| (apart.withRole.peerToEventMapAt _).bind fun _ ↦ along_getSelf.bind fun _ ↦
      same_macAndSendMsg _ _
  have retryRequests : Along R (retryRequests o) := by
    unfold retryRequests
    refine along_getSelf.bind fun self ↦ Along.bind (Along.forM fun r _ ↦ retry r)
      fun _ ↦ Along.bind ?_ fun _ ↦ along_getSelf.bind fun self ↦ ?_
    · exact assign (fun _ ↦ rfl) fun p ↦ retriedResponses p _
    · refine Along.ite ((Along.lift _).bind fun found ↦ Along.ite ?_ (Along.pure _)) (Along.pure _)
      refine Along.ite ?_ (Along.pure _)
      refine (same (same_generateRandomUid _)).bind fun uid ↦ (append rfl).bind fun _ ↦ ?_
      exact assign (fun _ ↦ rfl) fun p ↦ lastCheckpoint p _
  have leaderTimeout : Along R (leaderTimeout o) :=
    (same (same_heartbeat _)).bind fun _ ↦ retryRequests.bind fun _ ↦
      same apart.withRole.updateTimeout
  have startElection : Along R (startElection o) :=
    fun s ↦ wp_mono (led_startElection s) fun _ _ ↦ led
  have timeout : Along R (timeout o) := by
    unfold timeout
    refine along_getSelf.bind fun self ↦ Along.when leaderTimeout ?_
    refine along_getSelf.bind fun self ↦ Along.when startElection ?_
    refine along_getSelf.bind fun self ↦ Along.ite ?_ (Along.pure _)
    exact (same apart.withRole.updateTimeout).bind fun _ ↦ same (same_startPoll _)
  unfold setTime
  refine along_getSelf.bind fun self ↦ Along.bind ?_ fun _ ↦
    along_getSelf.bind fun self ↦ Along.ite timeout (Along.pure _)
  exact assign (fun _ ↦ rfl) fun p ↦ now p _

end TrustedDcr.Enclave
