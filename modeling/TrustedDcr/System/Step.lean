import TrustedDcr.Enclave.Commands
import TrustedDcr.System.Run

/-!
# What one step of a run can do

Every call of a host is a sequence of moves of the called enclave, and leaves
all others alone.
-/

namespace TrustedDcr.System
open TrustedDcr.Msg TrustedDcr.Dcr TrustedDcr.Enclave TrustedDcr.Theory

/-- The message a call delivers. -/
def Call.received : Call → Option Message
  | .recv msg => some msg
  | .setTime _ | .execute _ | .getHistory => none

/-- Only a delivery receives a message. -/
theorem Call.eq_recv {c : Call} {m : Message} (h : c.received = some m) : c = .recv m := by
  cases c with
  | recv msg => exact congrArg Call.recv (Option.some.inj h)
  | setTime | execute | getHistory => exact nomatch h

/-- The enclave before a call. -/
def World.enclave (s : World) (p : Uid) : EnclaveState := ⟨s.peers p, [], [], []⟩

/-- Every call is a sequence of moves. -/
theorem goes_body (o : Oracle) (c : Call) (s : EnclaveState) :
    wp (c.body o) (fun _ t ↦ Goes c.received o s.self s t) s := by
  cases c with
  | setTime ticks => exact goes_setTime ticks s
  | execute event => exact wp_mono (aside_execute event s) fun _ _ h ↦ h.goes
  | getHistory => exact wp_mono (aside_getHistory s) fun _ _ h ↦ h.goes
  | recv msg =>
    cases msg with
    | commandReq req => exact goes_recvCommandReq true req s
    | commandRsp rsp => exact wp_mono (goes_recvCommandRsp true rsp s) fun _ _ h ↦ h.1
    | appendReq req => exact goes_recvAppendReq true req s
    | appendRsp rsp => exact goes_recvAppendRsp true rsp s
    | pollReq req => exact goes_recvPollReq true req s
    | pollRsp rsp => exact goes_recvPollRsp true rsp s
    | electionReq req => exact goes_recvElectionReq true req s
    | electionRsp rsp => exact goes_recvElectionRsp true rsp s
    | logReq req => exact wp_mono (aside_recvLogReq true req s) fun _ _ h ↦ h.goes
    | logRsp rsp => exact wp_mono (aside_recvLogRsp true rsp s) fun _ _ h ↦ h.goes

/-- A step is allowed, and what its call leaves behind is what is known of the call. -/
theorem World.step_of_wp {cfg : Config} {s t : World} {a : Action} {Q : EnclaveState → Prop}
    (next : s.step cfg a = some t)
    (call : wp (a.call.body a.oracle) (fun _ e ↦ Q e) (s.enclave a.peer)) :
    a.Allowed cfg s ∧ ∃ e, Q e ∧ t.peers = Function.update s.peers a.peer e.self ∧
      t.net = s.net ++ e.sent ∧ t.uids = s.uids ++ e.drawn := by
  unfold World.step at next
  split at next
  · next hallowed =>
    split at next
    · next e he =>
      cases next
      exact ⟨hallowed, e, call _ e he, rfl, rfl, rfl⟩
    · exact nomatch next
  · exact nomatch next

/-- A step is allowed and made of moves of one enclave. -/
theorem World.step_cases {cfg : Config} {s t : World} {a : Action} (next : s.step cfg a = some t) :
    a.Allowed cfg s ∧ ∃ e : EnclaveState,
      Goes a.call.received a.oracle (s.peers a.peer) (s.enclave a.peer) e ∧
      t.peers = Function.update s.peers a.peer e.self ∧ t.net = s.net ++ e.sent ∧
      t.uids = s.uids ++ e.drawn :=
  World.step_of_wp next (goes_body a.oracle a.call (s.enclave a.peer))

/-- Every step of a run was allowed. -/
theorem Run.allowed {cfg : Config} {C : Hist → World → Action → Prop} {h : Hist} {s : World}
    (run : Run cfg C h s) : ∀ step ∈ h, step.2.Allowed cfg step.1 := by
  induction run with
  | initial => exact fun _ hstep ↦ nomatch hstep
  | step _ _ next ih => exact List.forall_mem_cons.mpr ⟨(World.step_cases next).1, ih⟩

/-- An allowed call that returns is a step. -/
theorem World.step_eq_some {cfg : Config} {s : World} {a : Action} {e : EnclaveState}
    (allowed : a.Allowed cfg s) (returns : a.call.body a.oracle (s.enclave a.peer) = .ok (⟨⟩, e)) :
    s.step cfg a = some ⟨Function.update s.peers a.peer e.self, s.net ++ e.sent,
      s.uids ++ e.drawn⟩ := by
  unfold World.enclave at returns
  unfold World.step
  rw [if_pos allowed, returns]

/-- A counted response comes from a peer that the map has an event for afterwards. -/
theorem World.step_mapped {cfg : Config} {s t : World} {a : Action} (next : s.step cfg a = some t)
    {rsp : CommandRsp} (received : a.call = .recv (.commandRsp rsp))
    (counts : (s.peers a.peer).countsLock rsp = true) :
    (t.peers a.peer).peerToEventMap[rsp.source]? = some ((s.peers a.peer).eventOf rsp.source) := by
  have call : wp (a.call.body a.oracle) (fun _ e ↦
      e.self.peerToEventMap[rsp.source]? = some ((s.peers a.peer).eventOf rsp.source))
      (s.enclave a.peer) := by
    rw [received]
    exact wp_mono (goes_recvCommandRsp true rsp (s.enclave a.peer)) fun _ _ h ↦ h.2 rfl counts
  obtain ⟨-, e, mapped, hpeers, -⟩ := World.step_of_wp next call
  rw [hpeers, Function.update_self]
  exact mapped

/-- Every step of the run satisfies a property of the states around it. -/
def EveryStep (P : World → Action → World → Prop) : Hist → World → Prop
  | [], _ => True
  | (s', a) :: h, s => EveryStep P h s' ∧ P s' a s

/-- What is equivalent at each step to a condition on the state before it, is so over a run. -/
theorem Run.everyStep_iff {cfg : Config} {C : Hist → World → Action → Prop} {h : Hist} {s : World}
    {P : World → Action → World → Prop} {Q : World → Action → Prop} (run : Run cfg C h s)
    (one : ∀ h s a t, Run cfg C h s → s.step cfg a = some t → (P s a t ↔ Q s a)) :
    EveryStep P h s ↔ ∀ step ∈ h, Q step.1 step.2 := by
  induction run with
  | initial => simp [EveryStep]
  | step run _ next ih =>
    rw [EveryStep, ih, List.forall_mem_cons, one _ _ _ _ run next, and_comm]

/-- Every state of the run, with the history before it, satisfies a property. -/
def EveryState (P : Hist → World → Prop) : Hist → World → Prop
  | [], s => P [] s
  | (s', a) :: h, s => EveryState P h s' ∧ P ((s', a) :: h) s

/-- Every step of the run meets a condition on the history, the state before and the action. -/
def EveryAction (C : Hist → World → Action → Prop) : Hist → Prop
  | [] => True
  | (s, a) :: h => EveryAction C h ∧ C h s a

private theorem EveryState.last {P : Hist → World → Prop} {h : Hist} {s : World}
    (every : EveryState P h s) : P h s := by
  cases h with
  | nil => exact every
  | cons => exact every.2

/-- The steps of a run meet its condition. -/
theorem Run.everyAction {cfg : Config} {C : Hist → World → Action → Prop} {h : Hist} {s : World}
    (run : Run cfg C h s) : EveryAction C h := by
  induction run with
  | initial => trivial
  | step _ meets _ ih => exact ⟨ih, meets⟩

/-- What a step keeps exactly on a condition holds throughout a run exactly when all its steps meet
the condition. -/
theorem Run.everyState_iff {cfg : Config} {C D : Hist → World → Action → Prop}
    {P : Hist → World → Prop} {h : Hist} {s : World} (run : Run cfg C h s)
    (start : P [] (World.initial cfg))
    (one : ∀ h s a t, Run cfg C h s → s.step cfg a = some t → P h s →
      (P ((s, a) :: h) t ↔ D h s a)) : EveryState P h s ↔ EveryAction D h := by
  induction run with
  | initial => exact iff_of_true start trivial
  | step run meets next ih =>
    unfold EveryState EveryAction
    rw [← ih]
    exact and_congr_right fun every ↦ one _ _ _ _ run next every.last

end TrustedDcr.System
