import TrustedDcr.Enclave.Timers
import TrustedDcr.Enclave.Walk

/-!
# What calls do not see of the clock

The clock and the timers decide when `set_time` lets a peer act, and whether it
grants a poll. Nothing else that a call does depends on them.
-/

namespace TrustedDcr.Enclave
open TrustedDcr.Msg TrustedDcr.Dcr TrustedDcr.Theory

/-- The enclave with another clock. -/
def EnclaveState.clocked (k : Clock) (s : EnclaveState) : EnclaveState :=
  { s with self := s.self.clocked k }

/-- Nothing but the clock depends on the clock. -/
abbrev Clockless {α : Type} (x : Ecall α) : Prop := Blind EnclaveState.clocked x

section

/-- An assignment that passes the clock on does not depend on it. -/
theorem clockless_modifySelf {g : Peer → Peer}
    (h : ∀ k p, ∃ k', g (Peer.clocked k p) = Peer.clocked k' (g p)) :
    Clockless (modifySelf g) := by
  refine Blind.modify fun k s ↦ ?_
  obtain ⟨k', hg⟩ := h k s.self
  exact ⟨k', congrArg (fun p ↦ { s with self := p }) hg⟩

/-- Sending does not depend on the clock. -/
theorem clockless_macAndSendMsg (msg : Message) : Clockless (macAndSendMsg msg) :=
  Blind.modify fun k _ ↦ ⟨k, rfl⟩

/-- The timers are set from the clock, and nothing else is. -/
theorem clockless_updateTimeout (o : Oracle) : Clockless (updateTimeout o) := by
  refine clockless_modifySelf fun k p ↦ ?_
  by_cases leads : p.role = .leader
  · refine ⟨⟨k.now, k.tMin, k.now + deltaHeartbeat⟩, ?_⟩
    rw [if_pos leads, if_pos (show (Peer.clocked k p).role = .leader from leads)]
    rfl
  · refine ⟨⟨k.now, k.now + deltaMinTime,
      k.now + deltaMinTime + (o.timeout.toUInt64 % deltaMaxTime)⟩, ?_⟩
    rw [if_neg leads, if_neg (show (Peer.clocked k p).role ≠ .leader from leads)]
    rfl

/-- No other step reads or writes the clock. -/
theorem walk_clockless : Walk (fun _ ↦ True) fun _ x ↦ Clockless x where
  toCompositional := compositional_blind
  self {_ f} same hf k s := by
    change ∃ k', f (s.self.clocked k) (s.clocked k) = (f s.self s).map _
    rw [same]
    exact hf s.self k s
  assign _ clocked := clockless_modifySelf fun k p ↦ ⟨k, clocked k p⟩
  updateTimeout := clockless_updateTimeout _
  draw := compositional_blind.bind (Blind.modify fun k _ ↦ ⟨k, rfl⟩) fun _ ↦ Blind.pure _
  broadcast _ := Blind.modify fun k _ ↦ ⟨k, rfl⟩

/-! ### Requests to poll -/

/-- `recv_poll_req` with the answer of `min_time_exceeded` given. -/
def answerPoll (valid : Bool) (req : PollReq) (exceeded : Bool) : Ecall Unit := do
  let verified ← verifyMacAndOwnTerm valid req.target req.source req.term
  if verified then
    let self ← getSelf
    let _ ← verifyMsgTerm req.term <| .pollRsp
      { target := req.source, source := self.id, term := self.term, success := false }
    if self.role = .follower then
      let last ← self.lastEntry
      macAndSendMsg <| .pollRsp
        { target := req.source, source := self.id, term := self.term,
          success := logNotAhead last req.lastTerm req.lastIndex && exceeded }

/-- The answer to a poll does not depend on the clock once the timeout is judged. -/
theorem clockless_answerPoll (valid : Bool) (req : PollReq) (exceeded : Bool) :
    Clockless (answerPoll valid req exceeded) := by
  have walk := walk_clockless
  refine walk.bind (walk.clerical.verifyMacAndOwnTerm _ _ _ _) fun verified ↦
    walk.ite ?_ (walk.pure _)
  refine walk.self (fun _ _ ↦ rfl) fun self ↦ walk.bind (walk.verifyMsgTerm _ rfl) fun _ ↦ ?_
  exact walk.ite (walk.bind (walk.lift _) fun _ ↦ clockless_macAndSendMsg _) (walk.pure _)

/-- The time is what it was before the request. -/
theorem recvPollReq_eq (valid : Bool) (req : PollReq) (s : EnclaveState) :
    recvPollReq valid req s = answerPoll valid req (minTimeExceeded s.self) s := by
  obtain ⟨verified, t, ht⟩ := total_verifyMacAndOwnTerm valid req.target req.source req.term s
  have time : minTimeExceeded t.self = minTimeExceeded s.self := by
    rcases verifyMacAndOwnTerm_cases valid req.target req.source req.term s verified t ht with
      ⟨rfl, -⟩ | rfl <;> rfl
  unfold recvPollReq answerPoll
  rw [bind_of_ok ht, bind_of_ok ht, ← time]
  cases verified <;> rfl

end

end TrustedDcr.Enclave
