import TrustedDcr.Enclave.Walk
import Mathlib.Logic.Function.Basic

/-!
# Runs of a set of enclaves

Enclaves configured with one workflow and one peer map, and the hosts that call
them. A host may deliver any message some enclave has sent, to any enclave, as
often and as late as it likes; it sets the clock and starts executions at will.
A call that reads outside a log has no result, so a run does not continue past
it. Runs carry their history, so that a condition on steps can refer to it.
-/

namespace TrustedDcr.System
open TrustedDcr.Msg TrustedDcr.Dcr TrustedDcr.Enclave

/-- What every enclave is configured with. `src/sgx_daemon/daemon.cpp:67–96`. -/
structure Config where
  workflow : IntermediateDcrWorkflow
  peerMap : List (Uid × Uid)

namespace Config

/-- The peer map as each enclave builds it. -/
def peerToEventMap (cfg : Config) : UidMap Uid := createPeerToEventMap cfg.peerMap

/-- The peers of one event's cluster. -/
def members (cfg : Config) (event : Uid) : List Uid := findClusterMembers cfg.peerToEventMap event

/-- The event whose cluster a peer belongs to. -/
def clusterOf (cfg : Config) (id : Uid) : Uid := cfg.peerToEventMap.getD id emptyUid

end Config

/-- A peer right after its configuration. -/
def configured (cfg : Config) (id : Uid) : Peer :=
  match configureEnclave silent id cfg.workflow cfg.peerMap ⟨Peer.zero, [], [], []⟩ with
  | .ok (_, s) => s.self
  | .error _ => Peer.zero

/-- All enclaves, every message ever sent and every identifier ever generated. -/
structure World where
  peers : Uid → Peer
  net : List Message
  uids : List Uid

/-- A call a host makes. -/
inductive Call where
  | setTime (ticks : UInt64)
  | recv (msg : Message)
  | execute (event : Uid)
  | getHistory
  deriving DecidableEq

/-- The call a message is for, made with whether its MAC validates.
`src/enclave/enclave.cpp:463–946`. -/
def receive (o : Oracle) (valid : Bool) : Message → Ecall Unit
  | .commandReq req => recvCommandReq o valid req
  | .commandRsp rsp => recvCommandRsp o valid rsp
  | .appendReq req => recvAppendReq o valid req
  | .appendRsp rsp => recvAppendRsp o valid rsp
  | .pollReq req => recvPollReq valid req
  | .pollRsp rsp => recvPollRsp o valid rsp
  | .electionReq req => recvElectionReq valid req
  | .electionRsp rsp => recvElectionRsp o valid rsp
  | .logReq req => recvLogReq valid req
  | .logRsp rsp => recvLogRsp valid rsp

/-- The dispatch of a delivered message, whose MAC validates. `src/sgx_daemon/daemon.cpp:105–183`. -/
def dispatch (o : Oracle) (msg : Message) : Ecall Unit := receive o true msg

/-- What a call runs inside the enclave. -/
def Call.body (o : Oracle) : Call → Ecall Unit
  | .setTime ticks => Enclave.setTime o ticks
  | .recv msg => dispatch o msg
  | .execute event => Enclave.execute o event
  | .getHistory => Enclave.getHistory

/-- The call neither reads the clock nor is about a log. -/
def Call.routine : Call → Bool
  | .setTime _ | .recv (.pollReq _) | .recv (.logReq _) | .recv (.logRsp _) => false
  | .recv _ | .execute _ | .getHistory => true

/-- What a walk says of every such call. -/
theorem walk_body {J : (α : Type) → Ecall α → Prop} (h : Walk (fun _ ↦ True) J) (o : Oracle)
    {c : Call} (routine : c.routine = true) : J Unit (c.body o) := by
  cases c with
  | setTime ticks => simp [Call.routine] at routine
  | execute event => exact h.clerical.execute event
  | getHistory => exact h.clerical.getHistory
  | recv msg =>
    cases msg with
    | commandReq req => exact h.clerical.recvCommandReq true req
    | commandRsp rsp => exact h.clerical.recvCommandRsp true rsp
    | appendReq req => exact h.recvAppendReq true req
    | appendRsp rsp => exact h.recvAppendRsp true rsp
    | pollRsp rsp => exact h.recvPollRsp true rsp
    | electionReq req => exact h.clerical.recvElectionReq true req
    | electionRsp rsp => exact h.recvElectionRsp true rsp
    | pollReq | logReq | logRsp => simp [Call.routine] at routine

/-- One call of one host. -/
structure Action where
  peer : Uid
  call : Call
  oracle : Oracle

/-- A host calls a configured enclave and delivers sent messages only. -/
def Action.Allowed (cfg : Config) (s : World) (a : Action) : Prop :=
  a.peer ∈ cfg.peerToEventMap ∧
    match a.call with
    | .recv msg => msg ∈ s.net
    | _ => True

instance (cfg : Config) (s : World) (a : Action) : Decidable (a.Allowed cfg s) := by
  unfold Action.Allowed
  cases a.call <;> infer_instance

namespace World

/-- All enclaves configured, no message sent. -/
def initial (cfg : Config) : World := ⟨configured cfg, [], []⟩

/-- The result of one host's call, if it has one. -/
def step (cfg : Config) (s : World) (a : Action) : Option World :=
  if a.Allowed cfg s then
    match a.call.body a.oracle ⟨s.peers a.peer, [], [], []⟩ with
    | .ok (_, e) => some
        { peers := Function.update s.peers a.peer e.self
          net := s.net ++ e.sent
          uids := s.uids ++ e.drawn }
    | .error _ => none
  else none

end World

/-- The steps taken so far, latest first, each with the state before it. -/
abbrev Hist := List (World × Action)

/-- The runs all of whose steps meet a condition on the history, the state before and the
action. -/
inductive Run (cfg : Config) (C : Hist → World → Action → Prop) : Hist → World → Prop
  | initial : Run cfg C [] (World.initial cfg)
  | step {h : Hist} {s t : World} {a : Action} (run : Run cfg C h s) (meets : C h s a)
      (next : s.step cfg a = some t) : Run cfg C ((s, a) :: h) t

/-- No condition: every run. -/
def anyStep : Hist → World → Action → Prop := fun _ _ _ ↦ True

instance (h : Hist) (s : World) (a : Action) : Decidable (anyStep h s a) :=
  inferInstanceAs (Decidable True)

/-! ### Replayed schedules -/

/-- One entry of a schedule: set a clock, deliver the numbered message, or start an execution;
`uid` is what `generate_random_uid` returns. -/
inductive Cue where
  | tick (peer : Uid) (ticks : UInt64) (uid : Uid)
  | deliver (peer : Uid) (message : Nat)
  | start (peer : Uid) (event : Uid) (uid : Uid)

/-- The action a schedule entry stands for. -/
def Cue.action (s : World) : Cue → Option Action
  | .tick peer ticks uid => some ⟨peer, .setTime ticks, { silent with uid := uid }⟩
  | .deliver peer message => s.net[message]?.map fun msg ↦ ⟨peer, .recv msg, silent⟩
  | .start peer event uid => some ⟨peer, .execute event, { silent with uid := uid }⟩

section Replay
variable (cfg : Config) (C : Hist → World → Action → Prop) [∀ h s a, Decidable (C h s a)]

/-- The run a schedule describes, if every step has a result and meets the condition. -/
def replay : Hist → World → List Cue → Option (Hist × World)
  | h, s, [] => some (h, s)
  | h, s, cue :: cues =>
    match cue.action s with
    | some a =>
      if C h s a then
        match s.step cfg a with
        | some t => replay ((s, a) :: h) t cues
        | none => none
      else none
    | none => none

variable {cfg C}

/-- A replayed schedule is a run under whatever its conditions imply for scheduled actions. -/
theorem run_of_replay_of_cues {D : Hist → World → Action → Prop}
    (meets : ∀ {h s cue a}, Cue.action s cue = some a → C h s a → D h s a) {h : Hist} {s : World}
    (run : Run cfg D h s) {cues : List Cue} {r : Hist × World}
    (hr : replay cfg C h s cues = some r) : Run cfg D r.1 r.2 := by
  induction cues generalizing h s with
  | nil =>
    rw [replay, Option.some.injEq] at hr
    rwa [← hr]
  | cons cue cues ih =>
    rw [replay] at hr
    split at hr
    · next a cued =>
      split at hr
      · next hc =>
        split at hr
        · next t next => exact ih (run.step (meets cued hc) next) hr
        · exact nomatch hr
      · exact nomatch hr
    · exact nomatch hr

/-- A replayed schedule is a run. -/
theorem run_of_replay {h : Hist} {s : World} (run : Run cfg C h s) {cues : List Cue}
    {r : Hist × World} (hr : replay cfg C h s cues = some r) : Run cfg C r.1 r.2 :=
  run_of_replay_of_cues (fun _ hc ↦ hc) run hr

variable (cfg C)

/-- A schedule that reaches a state passing a test gives a run to such a state. -/
theorem exists_run_of_replay (cues : List Cue) (test : Hist → World → Prop)
    (he : ∃ r ∈ replay cfg C [] (World.initial cfg) cues, test r.1 r.2) :
    ∃ h s, Run cfg C h s ∧ test h s := by
  obtain ⟨r, hr, ht⟩ := he
  exact ⟨r.1, r.2, run_of_replay .initial hr, ht⟩

/-- A schedule whose next step passes a test gives a run with such a step. -/
theorem exists_step_of_replay (cues : List Cue) (last : Cue)
    (test : Hist → World → Action → World → Prop)
    (he : ∃ r ∈ replay cfg C [] (World.initial cfg) cues, ∃ a ∈ last.action r.2,
      C r.1 r.2 a ∧ ∃ t ∈ r.2.step cfg a, test r.1 r.2 a t) :
    ∃ h s a t, Run cfg C h s ∧ C h s a ∧ s.step cfg a = some t ∧ test h s a t := by
  obtain ⟨r, hr, a, -, meets, t, next, ht⟩ := he
  exact ⟨r.1, r.2, a, t, run_of_replay .initial hr, meets, next, ht⟩

end Replay

/-! ### Configurations to replay -/

/-- Events without relations. -/
def unrelated (events : List Uid) : IntermediateDcrWorkflow where
  eventIds := events
  excluded := []
  pending := []
  executed := []
  dcrConditionsOut := []
  dcrConditionsIn := []
  dcrMilestonesOut := []
  dcrMilestonesIn := []
  dcrIncludesOut := []
  dcrIncludesIn := []
  dcrExcludesOut := []
  dcrExcludesIn := []
  dcrResponsesOut := []
  dcrResponsesIn := []

/-- Two events that exclude each other, each with a single peer. -/
def rivals : Config where
  workflow := { unrelated [⟨0, 1⟩, ⟨0, 2⟩] with
    dcrExcludesOut := [⟨0, 1⟩, ⟨0, 2⟩], dcrExcludesIn := [⟨0, 2⟩, ⟨0, 1⟩] }
  peerMap := [(⟨0, 11⟩, ⟨0, 1⟩), (⟨0, 21⟩, ⟨0, 2⟩)]

/-- One event with one peer. -/
def solo : Config where
  workflow := unrelated [⟨0, 1⟩]
  peerMap := [(⟨0, 11⟩, ⟨0, 1⟩)]

/-- An event with two peers, to which another event with one peer responds. -/
def trio : Config where
  workflow := { unrelated [⟨0, 1⟩, ⟨0, 2⟩] with
    dcrResponsesOut := [⟨0, 1⟩], dcrResponsesIn := [⟨0, 2⟩] }
  peerMap := [(⟨0, 11⟩, ⟨0, 1⟩), (⟨0, 12⟩, ⟨0, 1⟩), (⟨0, 21⟩, ⟨0, 2⟩)]

/-- One event with two peers. -/
def duo : Config where
  workflow := unrelated [⟨0, 1⟩]
  peerMap := [(⟨0, 11⟩, ⟨0, 1⟩), (⟨0, 12⟩, ⟨0, 1⟩)]

/-- One event with four peers. -/
def quartet : Config where
  workflow := unrelated [⟨0, 1⟩]
  peerMap := [(⟨0, 11⟩, ⟨0, 1⟩), (⟨0, 12⟩, ⟨0, 1⟩), (⟨0, 13⟩, ⟨0, 1⟩), (⟨0, 14⟩, ⟨0, 1⟩)]

/-- One event with five peers. -/
def quintet : Config where
  workflow := unrelated [⟨0, 1⟩]
  peerMap := [(⟨0, 11⟩, ⟨0, 1⟩), (⟨0, 12⟩, ⟨0, 1⟩), (⟨0, 13⟩, ⟨0, 1⟩), (⟨0, 14⟩, ⟨0, 1⟩),
    (⟨0, 15⟩, ⟨0, 1⟩)]

end TrustedDcr.System
