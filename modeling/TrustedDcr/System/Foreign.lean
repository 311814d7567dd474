import TrustedDcr.Enclave.Frame
import TrustedDcr.System.Run

/-!
# Foreign and forged messages

A message whose MAC does not validate, or which names another target, is dropped
by nine of the ten `recv_*` calls before they read or send anything. The tenth,
`recv_log_rsp`, asks for the MAC alone.
-/

namespace TrustedDcr.Msg

/-- The `target` every message has as its first field. -/
def Message.target : Message → Uid
  | .commandReq req => req.target
  | .commandRsp rsp => rsp.target
  | .appendReq req => req.target
  | .appendRsp rsp => rsp.target
  | .pollReq req => req.target
  | .pollRsp rsp => rsp.target
  | .electionReq req => req.target
  | .electionRsp rsp => rsp.target
  | .logReq req => req.target
  | .logRsp rsp => rsp.target

/-- The message is a `log_rsp_t`. -/
def Message.isLogRsp : Message → Bool
  | .logRsp _ => true
  | _ => false

end TrustedDcr.Msg

namespace TrustedDcr.System
open TrustedDcr.Msg TrustedDcr.Enclave TrustedDcr.Theory

/-- The MAC does not validate, or the message is for another peer. -/
def Foreign (valid : Bool) (target : Uid) (s : EnclaveState) : Prop :=
  valid = false ∨ target ≠ s.self.id

/-- The call returns, and neither the peer, the messages sent, the histories returned nor the
identifiers drawn have changed. -/
def Ignores (x : Ecall Unit) (s : EnclaveState) : Prop := x s = .ok (⟨⟩, s)

section
variable {o : Oracle} {valid : Bool} {target : Uid} {s : EnclaveState}

/-- The shared template drops a foreign message. `src/enclave/enclave.cpp:11–27`. -/
theorem verifyMacAndOwnTerm_of_foreign (foreign : Foreign valid target s) (source : Uid)
    (term : Nat) : verifyMacAndOwnTerm valid target source term s = .ok (false, s) := by
  unfold verifyMacAndOwnTerm
  by_cases hv : valid = true
  · have ht : uidsEqual target s.self.id = false := by
      rw [Bool.eq_false_iff, ne_eq, uidsEqual_iff]
      exact foreign.resolve_left (by simp [hv])
    subst hv
    change (if !uidsEqual target s.self.id then _ else _ : Ecall Bool) s = _
    rw [ht]
    rfl
  · rw [Bool.not_eq_true] at hv
    subst hv
    rfl

/-- So does every call that begins with it. -/
theorem ignores_verified (foreign : Foreign valid target s) (source : Uid) (term : Nat)
    (body : Ecall Unit) :
    Ignores (do
      let verified ← verifyMacAndOwnTerm valid target source term
      if verified then body) s := by
  change (verifyMacAndOwnTerm valid target source term s >>= _ : Except Fault _) = _
  rw [verifyMacAndOwnTerm_of_foreign foreign]
  rfl

/-- The inline copies of the two checks drop it as well. `src/enclave/enclave.cpp:463–473`. -/
theorem ignores_checked (foreign : Foreign valid target s) (body : Peer → Ecall Unit) :
    Ignores (do
      let self ← getSelf
      if !valid then return
      else if !uidsEqual target self.id then return
      else body self) s := by
  change (if !valid then pure ⟨⟩ else if !uidsEqual target s.self.id then pure ⟨⟩
    else body s.self : Ecall Unit) s = _
  rcases foreign with hv | ht
  · rw [hv]
    rfl
  · have ht : uidsEqual target s.self.id = false := by
      rwa [Bool.eq_false_iff, ne_eq, uidsEqual_iff]
    rw [ht]
    cases valid <;> rfl

private theorem uidsEqual_comm (lhs rhs : Uid) : uidsEqual lhs rhs = uidsEqual rhs lhs := by
  rw [Bool.eq_iff_iff, uidsEqual_iff, uidsEqual_iff, eq_comm]

/-- Looking up a peer's event sends and returns nothing. -/
theorem peerToEventMapAt_self (peer : Uid) (s : EnclaveState) :
    wp (peerToEventMapAt peer) (fun _ t ↦ t.sent = s.sent ∧ t.returned = s.returned) s := by
  unfold peerToEventMapAt
  rw [wp_bind, wp_getSelf]
  cases s.self.peerToEventMap[peer]? with
  | some event => exact wp_pure.mpr ⟨rfl, rfl⟩
  | none =>
    rw [wp_bind, wp_modifySelf, wp_pure]
    exact ⟨rfl, rfl⟩

/-- `recv_log_rsp` forwards its request or returns a history whenever the MAC validates. -/
theorem recvLogRsp_acts (rsp : LogRsp) (s : EnclaveState) :
    wp (recvLogRsp true rsp) (fun _ t ↦ t ≠ s) s := by
  have longer {α : Type} {l : List α} {a : α} : l ++ [a] ≠ l := by simp
  unfold recvLogRsp
  rw [if_pos rfl, wp_bind]
  refine wp_mono (peerToEventMapAt_self rsp.source s) fun event t ⟨hsent, hreturned⟩ ↦ ?_
  rw [wp_ite]
  constructor
  · intro _
    rw [wp_bind, wp_modifySelf, wp_bind, wp_getSelf, wp_macAndSendMsg]
    dsimp only
    rw [hsent]
    exact fun he ↦ longer (congrArg EnclaveState.sent he)
  · intro _
    rw [wp_modify, hreturned]
    exact fun he ↦ longer (congrArg EnclaveState.returned he)

/-- A history response is ignored only for its MAC: its target is not looked at. -/
theorem ignores_recvLogRsp_iff (valid : Bool) (rsp : LogRsp) (s : EnclaveState) :
    Ignores (recvLogRsp valid rsp) s ↔ valid = false := by
  constructor
  · intro ignores
    rw [Bool.eq_false_iff]
    rintro rfl
    exact recvLogRsp_acts rsp s _ _ ignores rfl
  · intro hv
    rw [hv]
    rfl

/-- Nine of the calls drop every foreign message. `src/enclave/enclave.cpp:463–919`. -/
theorem ignores_of_foreign (o : Oracle) {valid : Bool} {msg : Message} {s : EnclaveState}
    (foreign : Foreign valid msg.target s) (noLog : msg.isLogRsp = false) :
    Ignores (receive o valid msg) s := by
  cases msg with
  | commandReq req => exact ignores_checked foreign _
  | commandRsp rsp => exact ignores_checked foreign _
  | appendReq req => exact ignores_verified foreign req.source req.term _
  | appendRsp rsp => exact ignores_verified foreign rsp.source rsp.term _
  | pollReq req => exact ignores_verified foreign req.source req.term _
  | pollRsp rsp => exact ignores_verified foreign rsp.source rsp.term _
  | electionReq req => exact ignores_verified foreign req.source req.term _
  | electionRsp rsp => exact ignores_verified foreign rsp.source rsp.term _
  | logReq req =>
    change Ignores (recvLogReq valid req) s
    unfold recvLogReq
    -- the two identifiers are compared the other way round here
    simp only [uidsEqual_comm _ req.target]
    exact ignores_checked foreign _
  | logRsp rsp => exact absurd noLog (by simp [Message.isLogRsp])

/-- A foreign message has no effect exactly when it is no response to a request for a log that
validates. `src/enclave/enclave.cpp:463–946`. -/
theorem ignores_foreign_iff (o : Oracle) (valid : Bool) (msg : Message) (s : EnclaveState)
    (foreign : Foreign valid msg.target s) :
    Ignores (receive o valid msg) s ↔ ¬(msg.isLogRsp = true ∧ valid = true) := by
  cases hlog : msg.isLogRsp with
  | false =>
    have ignores := ignores_of_foreign o foreign hlog
    simp [ignores]
  | true =>
    cases msg with
    | logRsp rsp =>
      have acts : Ignores (receive o valid (.logRsp rsp)) s ↔ valid = false :=
        ignores_recvLogRsp_iff valid rsp s
      rw [acts]
      simp
    | _ => exact nomatch hlog

end

/-- Peer 11 drops a LOCK request for peer 12. -/
theorem ignores_foreign_lock :
    let s : EnclaveState := ⟨{ Peer.zero with id := ⟨0, 11⟩ }, [], [], []⟩
    let req : CommandReq := ⟨⟨0, 12⟩, ⟨0, 21⟩, ⟨⟨0, 101⟩, .lock⟩, ⟨0, 2⟩⟩
    Ignores (receive silent true (.commandReq req)) s := by
  intro s req
  have foreign : Foreign true (Message.commandReq req).target s := Or.inr (by decide)
  exact (ignores_foreign_iff silent true _ s foreign).mpr (by decide)

/-- Peer 11 returns a history that was sent to peer 12. -/
theorem not_ignores_foreign : ¬ ∀ (o : Oracle) (valid : Bool) (msg : Message) (s : EnclaveState),
    Foreign valid msg.target s → Ignores (receive o valid msg) s := by
  intro claim
  have foreign : Foreign true ⟨0, 12⟩ ⟨{ Peer.zero with id := ⟨0, 11⟩ }, [], [], []⟩ :=
    Or.inr (by decide)
  let rsp : LogRsp := ⟨⟨0, 12⟩, ⟨0, 21⟩, true, emptyUid, [getEmptyEntry]⟩
  exact recvLogRsp_acts rsp _ _ _ (claim silent true (.logRsp rsp) _ foreign) rfl

end TrustedDcr.System
