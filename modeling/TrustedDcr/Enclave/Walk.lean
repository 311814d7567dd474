import TrustedDcr.Enclave.Frame
import TrustedDcr.Theory.Compositional

/-!
# One walk through the calls

A call assigns to `self`, sets the timers, draws an identifier and sends messages. A
`Walk` is a compositional property that these steps have; so have it the helpers and the
calls made of them, whatever the property is about. Which assignments it allows is a
parameter: the clerical ones leave the lead of a cluster to whoever has it.
-/

namespace TrustedDcr.Msg

/-- Whether the message neither grants a poll nor answers with a log. -/
def Message.ordinary : Message → Bool
  | .pollRsp rsp => !rsp.success
  | .logRsp _ => false
  | _ => true

end TrustedDcr.Msg

namespace TrustedDcr.Enclave
open TrustedDcr.Msg TrustedDcr.Dcr TrustedDcr.Theory

/-- A reading of the clock and of both timers. -/
structure Clock where
  now : UInt64
  tMin : UInt64
  t : UInt64
  deriving DecidableEq

/-- The peer with another clock. -/
def Peer.clocked (k : Clock) (p : Peer) : Peer := { p with now := k.now, tMin := k.tMin, t := k.t }

/-- The clock of the peer. -/
def Peer.clock (p : Peer) : Clock := ⟨p.now, p.tMin, p.t⟩

/-- A peer that is given its own clock stays as it is. -/
@[simp] theorem Peer.clocked_clock (p : Peer) : p.clocked p.clock = p := rfl

/-- An assignment that neither reads nor writes the clock leaves it alone. -/
theorem clock_of_clocked {g : Peer → Peer} (h : ∀ k p, g (Peer.clocked k p) = (g p).clocked k)
    (p : Peer) : (g p).clock = p.clock := by
  have same := h p.clock p
  rw [p.clocked_clock] at same
  rw [same]
  rfl

/-- What a peer has of the lead of its cluster. -/
structure Lead where
  role : Role
  term : Nat
  log : List Entry
  indices : UidMap Nat
  lockedEntryIndex : Int

/-- The part of a peer that concerns the lead. -/
def Peer.lead (p : Peer) : Lead := ⟨p.role, p.term, p.log, p.indices, p.lockedEntryIndex⟩

/-- The assignment makes no leader, acknowledges no entry and takes none away. -/
inductive Clerical : (Peer → Peer) → Prop
  | keeps {g : Peer → Peer} (h : ∀ p, (g p).lead = p.lead) : Clerical g
  | appends {g : Peer → Peer} (entry : Entry)
      (h : ∀ p, (g p).lead = { p.lead with log := p.log ++ [entry] }) : Clerical g
  | releases {g : Peer → Peer} (h : ∀ p, (g p).lead = { p.lead with lockedEntryIndex := -1 }) :
      Clerical g
  | follows {g : Peer → Peer} (term : Nat) (h : ∀ p, (g p).lead =
      { p.lead with role := .follower, term := term, lockedEntryIndex := -1 }) : Clerical g

/-- A property of calls that passes from the parts to the whole and that these steps have, where
`A` says which assignments to fields other than the clock. -/
structure Walk (A : (Peer → Peer) → Prop) (J : (α : Type) → Ecall α → Prop) : Prop extends
    Compositional J where
  self : ∀ {α : Type} {f : Peer → Ecall α}, (∀ k p, f (Peer.clocked k p) = f p) →
    (∀ p, J α (f p)) → J α (getSelf >>= f)
  assign : ∀ {g : Peer → Peer}, A g → (∀ k p, g (Peer.clocked k p) = (g p).clocked k) →
    J Unit (modifySelf g)
  updateTimeout : ∀ {o : Oracle}, J Unit (Enclave.updateTimeout o)
  draw : ∀ {o : Oracle}, J Uid (generateRandomUid o)
  broadcast : ∀ {msgs : List Message}, (∀ m ∈ msgs, m.ordinary = true) →
    J Unit (macAndBroadcastMsgs msgs)

/-- Changing the enclave along a relation that its steps keep to. -/
theorem walk_along {A : (Peer → Peer) → Prop} {R : EnclaveState → EnclaveState → Prop}
    [Std.Refl R] [IsTrans EnclaveState R]
    (assign : ∀ {g : Peer → Peer}, A g → (∀ p, (g p).clock = p.clock) → Along R (modifySelf g))
    (updateTimeout : ∀ o, Along R (updateTimeout o))
    (draw : ∀ s uid, R s { s with drawn := s.drawn ++ [uid] })
    (broadcast : ∀ {msgs : List Message}, (∀ m ∈ msgs, m.ordinary = true) →
      Along R (macAndBroadcastMsgs msgs)) : Walk A fun _ x ↦ Along R x where
  toCompositional := compositional_along
  self _ hf := along_getSelf.bind hf
  assign written clocked := assign written (clock_of_clocked clocked)
  updateTimeout := updateTimeout _
  draw := (Along.modify fun s ↦ draw s _).bind fun _ ↦ Along.pure _
  broadcast := broadcast

/-! ### The helpers -/

namespace Walk

section
variable {A : (Peer → Peer) → Prop} {J : (α : Type) → Ecall α → Prop} (h : Walk A J)
include h

private theorem mono {B : (Peer → Peer) → Prop} (weaker : ∀ {g}, B g → A g) : Walk B J :=
  { h with assign := fun written ↦ h.assign (weaker written) }

/-- A message may go out that neither grants a poll nor answers with a log. -/
theorem send {msg : Message} (plain : msg.ordinary = true) : J Unit (macAndSendMsg msg) :=
  h.broadcast fun _ hm ↦ List.mem_singleton.mp hm ▸ plain

/-- One message to each of several peers. -/
theorem tell {α : Type} {l : List α} {f : α → Message} (plain : ∀ a, (f a).ordinary = true) :
    J Unit (macAndBroadcastMsgs (l.map f)) := by
  apply h.broadcast
  intro m hm
  obtain ⟨a, -, rfl⟩ := List.mem_map.mp hm
  exact plain a

/-- Refusing an outdated term, where the refusal is ordinary. -/
theorem verifyMsgTerm (term : Nat) {rsp : Message} (plain : rsp.ordinary = true) :
    J Bool (verifyMsgTerm term rsp) :=
  h.self (fun _ _ ↦ rfl) fun _ ↦ h.ite (h.bind (h.send plain) fun _ ↦ h.pure _) (h.pure _)

/-- A heartbeat to all members. -/
theorem heartbeat : J Unit heartbeat :=
  h.self (fun _ _ ↦ rfl) fun _ ↦ h.ite
    (h.bind (h.lift _) fun _ ↦ h.tell fun _ ↦ rfl) (h.pure _)

/-- A poll called among the members. -/
theorem startPoll : J Unit startPoll :=
  h.self (fun _ _ ↦ rfl) fun _ ↦ h.ite
    (h.bind (h.lift _) fun _ ↦ h.tell fun _ ↦ rfl) (h.pure _)

private theorem broadcastLast : J Unit broadcastLast :=
  h.self (fun _ _ ↦ rfl) fun _ ↦ h.ite (h.bind (h.lift _) fun _ ↦ h.bind (h.lift _) fun _ ↦
    h.tell fun _ ↦ rfl) (h.pure _)

end

section
variable {o : Oracle} {J : (α : Type) → Ecall α → Prop} (h : Walk Clerical J)
include h

/-- An assignment that has nothing to do with the lead. -/
theorem note {g : Peer → Peer} (clocked : ∀ k p, g (Peer.clocked k p) = (g p).clocked k)
    (lead : ∀ p, (g p).lead = p.lead) : J Unit (modifySelf g) := h.assign (.keeps lead) clocked

/-- Looking a leader up. -/
theorem leaderMapAt (event : Uid) : J Uid (leaderMapAt event) := by
  refine h.self (fun _ _ ↦ rfl) fun self ↦ ?_
  cases self.leaderMap[event]? with
  | some leader => exact h.pure _
  | none => exact h.bind (h.note (fun _ _ ↦ rfl) fun _ ↦ rfl) fun _ ↦ h.pure _

/-- Looking a peer's event up. -/
theorem peerToEventMapAt (peer : Uid) : J Uid (peerToEventMapAt peer) := by
  refine h.self (fun _ _ ↦ rfl) fun self ↦ ?_
  cases self.peerToEventMap[peer]? with
  | some event => exact h.pure _
  | none => exact h.bind (h.note (fun _ _ ↦ rfl) fun _ ↦ rfl) fun _ ↦ h.pure _

/-- Whoever takes over a term follows in it. -/
theorem verifyMacAndOwnTerm (valid : Bool) (target source : Uid) (term : Nat) :
    J Bool (verifyMacAndOwnTerm valid target source term) := by
  unfold Enclave.verifyMacAndOwnTerm
  refine h.ite (h.pure _) (h.self (fun _ _ ↦ rfl) fun self ↦
    h.ite (h.pure _) (h.when ?_ (h.pure _)))
  exact h.assign (.follows term fun _ ↦ rfl) fun _ _ ↦ rfl

private theorem eventLeader (tag : CommandTag) (eventId : Uid) :
    J Uid (eventLeader o tag eventId) := by
  refine h.self (fun _ _ ↦ rfl) fun self ↦ ?_
  split
  · exact h.pure _
  · split
    · exact h.bind (h.note (fun _ _ ↦ rfl) fun _ ↦ rfl) fun _ ↦ h.pure _
    · exact h.pure _

private theorem fileCommand (tag : CommandTag) (eventId : Uid) :
    J Message (fileCommand o tag eventId) :=
  h.bind (h.eventLeader tag eventId) fun _ ↦ h.self (fun _ _ ↦ rfl) fun _ ↦
    h.bind (h.note (fun _ _ ↦ rfl) fun _ ↦ rfl) fun _ ↦ h.pure _

/-- Requests for commands are filed, and sent together. -/
theorem sendCommands (tag : CommandTag) (events : List Uid) :
    J Unit (sendCommands o tag events) := by
  refine h.bind_of (P := fun ms ↦ ∀ m ∈ ms, m.ordinary = true)
    (h.mapM (h.fileCommand tag) events) (Yields.mapM (fun event s ↦ ?_) events) fun _ ↦ h.broadcast
  exact wp_bind.mpr fun _ _ _ ↦ wp_bind.mpr fun _ _ _ ↦ wp_bind.mpr fun _ _ _ ↦ wp_pure.mpr rfl

private theorem sendLockRequests (tagId : Uid) : J Unit (sendLockRequests o tagId) :=
  h.self (fun _ _ ↦ rfl) fun _ ↦ h.sendCommands _ _

/-- Informing the events of the inform set. -/
theorem sendExecution (tagId : Uid) : J Unit (sendExecution o tagId) :=
  h.self (fun _ _ ↦ rfl) fun _ ↦ h.sendCommands _ _

private theorem commitEntry (round : Nat) (entry : Entry) :
    J (Option CommandRsp) (commitEntry o round entry) := by
  refine h.ite (h.bind (h.note (fun _ _ ↦ rfl) fun _ ↦ rfl) fun _ ↦ h.pure _)
    (h.when (h.note (fun _ _ ↦ rfl) fun _ ↦ rfl) ?_)
  refine h.self (fun _ _ ↦ rfl) fun self ↦
    h.ite (h.bind (h.sendLockRequests _) fun _ ↦ h.pure _) (h.ite ?_ (h.pure _))
  exact h.bind (h.lift _) fun _ ↦
    h.when (h.assign (.releases fun _ ↦ rfl) fun _ _ ↦ rfl) (h.pure _)

private theorem commitEntries (round : Nat) (entries : List Entry) :
    J (List CommandRsp) (commitEntries o round entries) := by
  induction entries generalizing round with
  | nil => exact h.pure []
  | cons entry entries ih =>
    rw [commitEntries_cons]
    exact h.bind (h.commitEntry round entry) fun _ ↦ h.bind (ih _) fun _ ↦ h.pure _

/-- Committing, as a leader or as a follower. -/
theorem updateCommitIndex (newIndex : Nat) : J Unit (updateCommitIndex o newIndex) := by
  refine h.self (fun _ _ ↦ rfl) fun self ↦ h.bind (h.lift _) fun committed ↦ h.ite ?_ ?_
  · exact h.bind (h.note (fun _ _ ↦ rfl) fun _ ↦ rfl) fun _ ↦ h.note (fun _ _ ↦ rfl) fun _ ↦ rfl
  · exact h.bind (h.commitEntries _ _) fun _ ↦ h.bind (h.tell fun _ ↦ rfl) fun _ ↦
      h.note (fun _ _ ↦ rfl) fun _ ↦ rfl

/-- Appending an entry and sending it, or committing it when alone. -/
theorem appendToLog (entry : Entry) : J Unit (appendToLog o entry) := by
  refine h.bind (h.assign (.appends entry fun _ ↦ rfl) fun _ _ ↦ rfl) fun _ ↦
    h.self (fun _ _ ↦ rfl) fun _ ↦ h.ite (h.updateCommitIndex _) ?_
  exact h.bind h.broadcastLast fun _ ↦ h.updateTimeout

/-- Sending one missing request again. -/
theorem retryRequest (key : Uid) (req : CommandReq) : J Unit (retryRequest o key req) :=
  h.bind (h.peerToEventMapAt _) fun _ ↦ h.self (fun _ _ ↦ rfl) fun _ ↦ h.send rfl

/-- Sending all missing requests again, or appending a checkpoint. -/
theorem retryRequests : J Unit (retryRequests o) := by
  refine h.self (fun _ _ ↦ rfl) fun self ↦
    h.bind (h.forM (fun r : Uid × CommandReq ↦ h.retryRequest r.1 r.2) _) fun _ ↦
    h.bind (h.note (fun _ _ ↦ rfl) fun _ ↦ rfl) fun _ ↦ h.self (fun _ _ ↦ rfl) fun self ↦
    h.ite (h.bind (h.lift _) fun found ↦ h.ite (h.ite ?_ (h.pure _)) (h.pure _)) (h.pure _)
  exact h.bind h.draw fun _ ↦ h.bind (h.appendToLog _) fun _ ↦
    h.note (fun _ _ ↦ rfl) fun _ ↦ rfl

private theorem abortCommand (tagId eventId : Uid) :
    J (List Message) (abortCommand tagId eventId) :=
  h.bind (h.leaderMapAt _) fun _ ↦ h.self (fun _ _ ↦ rfl) fun _ ↦
    h.ite (h.pure _) (h.bind (h.note (fun _ _ ↦ rfl) fun _ ↦ rfl) fun _ ↦ h.pure _)

private theorem abortExecution (tagId : Uid) : J Unit (abortExecution o tagId) := by
  refine h.bind (h.assign (.releases fun _ ↦ rfl) fun _ _ ↦ rfl) fun _ ↦
    h.self (fun _ _ ↦ rfl) fun _ ↦ h.bind (h.appendToLog _) fun _ ↦
    h.self (fun _ _ ↦ rfl) fun self ↦ ?_
  refine h.bind_of (P := fun mss ↦ ∀ ms ∈ mss, ∀ m ∈ ms, m.ordinary = true)
    (h.mapM (h.abortCommand tagId) _) (Yields.mapM (fun event s ↦ ?_) _) fun mss hmss ↦ ?_
  · refine wp_bind.mpr fun _ _ _ ↦ wp_bind.mpr fun _ _ _ ↦ wp_ite.mpr ⟨fun _ ↦ ?_, fun _ ↦ ?_⟩
    · exact wp_pure.mpr (List.forall_mem_nil _)
    · exact wp_bind.mpr fun _ _ _ ↦ wp_pure.mpr fun _ hm ↦ List.mem_singleton.mp hm ▸ rfl
  · apply h.broadcast
    intro m hm
    obtain ⟨ms, hms, hm⟩ := List.mem_flatten.mp hm
    exact hmss ms hms m hm

/-- The timeout of a leader. -/
theorem leaderTimeout : J Unit (leaderTimeout o) :=
  h.bind h.heartbeat fun _ ↦ h.bind h.retryRequests fun _ ↦ h.updateTimeout

/-! ### Calls that leave the lead to whoever has it -/

private theorem appendCommand (req : CommandReq) (tag : CommandTag) :
    J Unit (appendCommand o req tag) :=
  h.self (fun _ _ ↦ rfl) fun _ ↦ h.appendToLog _

private theorem admitLock (req : CommandReq) : J Unit (admitLock o req) := by
  refine h.self (fun _ _ ↦ rfl) fun self ↦ h.bind (h.lift _) fun found ↦
    h.ite (h.send rfl) (h.ite ?_ (h.appendCommand _ _))
  exact h.bind (h.note (fun _ _ ↦ rfl) fun _ ↦ rfl) fun _ ↦ h.ite (h.send rfl)
    (h.ite (h.appendCommand _ _) (h.appendCommand _ _))

/-- A command request, admitted or redirected. -/
theorem recvCommandReq (valid : Bool) (req : CommandReq) :
    J Unit (recvCommandReq o valid req) := by
  refine h.self (fun _ _ ↦ rfl) fun self ↦
    h.ite (h.pure _) (h.ite (h.pure _) (h.ite (h.send rfl) ?_))
  cases self.existInLog req.tag with
  | some index => exact h.ite (h.send rfl) (h.pure _)
  | none => exact h.ite (h.admitLock req) (h.appendCommand _ _)

private theorem recvRedirect (rsp : CommandRsp) : J Unit (recvRedirect rsp) := by
  refine h.bind (h.peerToEventMapAt _) fun event ↦ h.bind (h.note (fun _ _ ↦ rfl) fun _ ↦ rfl)
    fun _ ↦ h.self (fun _ _ ↦ rfl) fun self ↦ ?_
  cases self.missingResp[rsp.source]? with
  | some req => exact h.note (fun _ _ ↦ rfl) fun _ ↦ rfl
  | none => exact h.pure _

private theorem clearMissingResp (rsp : CommandRsp) : J Unit (clearMissingResp rsp) := by
  refine h.self (fun _ _ ↦ rfl) fun self ↦ ?_
  cases self.missingResp[rsp.source]? with
  | some req => exact h.ite (h.note (fun _ _ ↦ rfl) fun _ ↦ rfl) (h.pure _)
  | none => exact h.pure _

private theorem recvAbortRsp (rsp : CommandRsp) : J Unit (recvAbortRsp o rsp) :=
  h.bind (h.leaderMapAt _) fun _ ↦ h.self (fun _ _ ↦ rfl) fun _ ↦ h.bind (h.lift _) fun _ ↦
    h.ite (h.pure _) (h.bind (h.lift _) fun _ ↦ h.ite (h.abortExecution _)
      (h.ite (h.appendToLog _) (h.pure _)))

private theorem answerResolved (rsp : CommandRsp) (lockIndex : Nat) :
    J Unit (answerResolved o rsp lockIndex) :=
  h.self (fun _ _ ↦ rfl) fun _ ↦ h.bind (h.lift _) fun _ ↦ h.ite
    (h.bind (h.note (fun _ _ ↦ rfl) fun _ ↦ rfl) fun _ ↦ h.send rfl) (h.pure _)

private theorem countLock (rsp : CommandRsp) : J Unit (countLock o rsp) := by
  refine h.bind (h.peerToEventMapAt _) fun event ↦ h.bind (h.note (fun _ _ ↦ rfl) fun _ ↦ rfl)
    fun _ ↦ h.self (fun _ _ ↦ rfl) fun self ↦ h.ite ?_ (h.pure _)
  exact h.bind (h.sendExecution _) fun _ ↦ h.bind (h.appendToLog _) fun _ ↦
    h.note (fun _ _ ↦ rfl) fun _ ↦ rfl

private theorem recvLockRsp (rsp : CommandRsp) : J Unit (recvLockRsp o rsp) := by
  refine h.self (fun _ _ ↦ rfl) fun self ↦ ?_
  cases self.existInLog rsp.tag with
  | none => exact h.pure _
  | some lockIndex =>
    exact h.bind (h.lift _) fun _ ↦ h.ite (h.answerResolved rsp lockIndex) (h.countLock rsp)

/-- A command response, counted, recalled or answered late. -/
theorem recvCommandRsp (valid : Bool) (rsp : CommandRsp) :
    J Unit (recvCommandRsp o valid rsp) := by
  refine h.self (fun _ _ ↦ rfl) fun self ↦ h.ite (h.pure _) (h.ite (h.pure _) (h.ite (h.pure _)
    (h.ite (h.recvRedirect rsp) (h.bind (h.clearMissingResp rsp) fun _ ↦ ?_))))
  cases rsp.tag.type with
  | abort => exact h.recvAbortRsp rsp
  | exec => exact h.note (fun _ _ ↦ rfl) fun _ ↦ rfl
  | lock => exact h.recvLockRsp rsp
  | checkpoint => exact h.pure _

/-- A request for votes, granted or not. -/
theorem recvElectionReq (valid : Bool) (req : ElectionReq) :
    J Unit (recvElectionReq valid req) :=
  h.bind (h.verifyMacAndOwnTerm _ _ _ _) fun _ ↦ h.ite (h.self (fun _ _ ↦ rfl) fun _ ↦
    h.bind (h.verifyMsgTerm _ rfl) fun _ ↦ h.ite (h.ite (h.bind (h.lift _) fun _ ↦
      h.when (h.note (fun _ _ ↦ rfl) fun _ ↦ rfl) (h.send rfl)) (h.pure _)) (h.pure _)) (h.pure _)

/-- The attempt a host starts. -/
theorem execute (eventId : Uid) : J Unit (execute o eventId) :=
  h.bind (h.leaderMapAt _) fun _ ↦ h.self (fun _ _ ↦ rfl) fun _ ↦ h.bind h.draw fun _ ↦ h.send rfl

/-- The history a host asks for. -/
theorem getHistory : J Unit getHistory := by
  refine h.self (fun _ _ ↦ rfl) fun self ↦ h.bind_of (P := fun ms ↦ ∀ m ∈ ms, m.ordinary = true)
    (h.mapM (fun event ↦ h.bind (h.leaderMapAt event) fun _ ↦ h.pure _) _)
    (Yields.mapM (fun event s ↦ ?_) _) fun _ ↦ h.broadcast
  exact wp_bind.mpr fun _ _ _ ↦ wp_pure.mpr rfl

/-- Given what is sent with a log. -/
theorem recvLogReq (answer : ∀ rsp, J Unit (macAndSendMsg (.logRsp rsp))) (valid : Bool)
    (req : LogReq) : J Unit (recvLogReq valid req) := by
  refine h.self (fun _ _ ↦ rfl) fun self ↦ h.ite (h.pure _) (h.ite (h.pure _)
    (h.ite ?_ (answer _)))
  exact h.bind (h.mapM (fun _ ↦ h.lift _) _) fun _ ↦ answer _

/-- Given what the host is told. -/
theorem recvLogRsp (report : ∀ part, J Unit (modify fun s ↦
      { s with returned := s.returned ++ [part] })) (valid : Bool) (rsp : LogRsp) :
    J Unit (recvLogRsp valid rsp) := by
  refine h.ite (h.bind (h.peerToEventMapAt _) fun event ↦ h.ite ?_ (report _)) (h.pure _)
  exact h.bind (h.note (fun _ _ ↦ rfl) fun _ ↦ rfl) fun _ ↦ h.self (fun _ _ ↦ rfl) fun _ ↦
    h.send rfl

end

/-! ### Calls that change the lead -/

section
variable {o : Oracle} {J : (α : Type) → Ecall α → Prop} (h : Walk (fun _ ↦ True) J)
include h

/-- What clerical assignments suffice for. -/
theorem clerical : Walk Clerical J := h.mono fun _ ↦ trivial

private theorem becomeLeader : J Unit (becomeLeader o) := by
  refine h.bind (h.assign trivial fun _ _ ↦ rfl) fun _ ↦ h.self (fun _ _ ↦ rfl) fun self ↦
    h.bind (h.lift _) fun found ↦ ?_
  cases found with
  | none | some =>
    exact h.bind (h.assign trivial fun _ _ ↦ rfl) fun _ ↦
      h.bind (h.assign trivial fun _ _ ↦ rfl) fun _ ↦ h.updateTimeout

/-- What configuration does once its fields are assigned. -/
theorem configured : J Unit (do
    let self ← Enclave.getSelf
    let leader ← Enclave.leaderMapAt self.clusterEvent
    modifySelf fun p ↦ p.updateTerm 0 leader
    if self.clusterSize = 1 then Enclave.becomeLeader o) :=
  h.self (fun _ _ ↦ rfl) fun _ ↦ h.bind (h.clerical.leaderMapAt _) fun _ ↦
    h.bind (h.assign trivial fun _ _ ↦ rfl) fun _ ↦ h.ite h.becomeLeader (h.pure _)

/-- Standing for election, where a candidate may be made. -/
theorem startElection : J Unit (startElection o) :=
  h.bind h.updateTimeout fun _ ↦ h.bind (h.assign trivial fun _ _ ↦ rfl) fun _ ↦
    h.bind (h.assign trivial fun _ _ ↦ rfl) fun _ ↦ h.self (fun _ _ ↦ rfl) fun _ ↦
    h.bind (h.lift _) fun _ ↦ h.tell fun _ ↦ rfl

/-- The timeout of any role. -/
theorem timeout : J Unit (timeout o) := by
  refine h.self (fun _ _ ↦ rfl) fun _ ↦ h.when h.clerical.leaderTimeout ?_
  refine h.self (fun _ _ ↦ rfl) fun _ ↦ h.when h.startElection ?_
  refine h.self (fun _ _ ↦ rfl) fun _ ↦ h.ite ?_ (h.pure _)
  exact h.bind h.updateTimeout fun _ ↦ h.startPoll

/-- Entries taken in by a follower, where others may give way. -/
theorem acceptEntries (req : AppendReq) : J Unit (acceptEntries o req) :=
  h.bind (h.assign trivial fun _ _ ↦ rfl) fun _ ↦ h.bind (h.assign trivial fun _ _ ↦ rfl) fun _ ↦
    h.self (fun _ _ ↦ rfl) fun _ ↦ h.when (h.clerical.updateCommitIndex _) (h.send rfl)

/-- An append request, taken in or refused. -/
theorem recvAppendReq (valid : Bool) (req : AppendReq) : J Unit (recvAppendReq o valid req) := by
  refine h.bind (h.clerical.verifyMacAndOwnTerm _ _ _ _) fun verified ↦ h.ite ?_ (h.pure _)
  refine h.self (fun _ _ ↦ rfl) fun self ↦ h.bind (h.verifyMsgTerm _ rfl) fun verified ↦
    h.ite (h.ite ?_ (h.pure _)) (h.pure _)
  exact h.when h.updateTimeout (h.ite (h.send rfl) (h.acceptEntries req))

/-- An append response, where entries may be acknowledged. -/
theorem recvAppendRsp (valid : Bool) (rsp : AppendRsp) : J Unit (recvAppendRsp o valid rsp) := by
  refine h.bind (h.clerical.verifyMacAndOwnTerm _ _ _ _) fun verified ↦ h.ite ?_ (h.pure _)
  refine h.self (fun _ _ ↦ rfl) fun self ↦ h.ite (h.ite ?_ ?_) (h.pure _)
  · exact h.bind (h.assign trivial fun _ _ ↦ rfl) fun _ ↦ h.self (fun _ _ ↦ rfl) fun _ ↦
      h.bind (h.lift _) fun _ ↦ h.bind (h.lift _) fun _ ↦
      h.ite (h.clerical.updateCommitIndex _) (h.pure _)
  · exact h.bind (h.lift _) fun _ ↦ h.send rfl

/-- A poll response, counted or not. -/
theorem recvPollRsp (valid : Bool) (rsp : PollRsp) : J Unit (recvPollRsp o valid rsp) := by
  refine h.bind (h.clerical.verifyMacAndOwnTerm _ _ _ _) fun verified ↦ h.ite ?_ (h.pure _)
  refine h.self (fun _ _ ↦ rfl) fun self ↦
    h.ite (h.when (h.assign trivial fun _ _ ↦ rfl) ?_) (h.pure _)
  exact h.self (fun _ _ ↦ rfl) fun _ ↦ h.ite h.startElection (h.pure _)

/-- A vote, where a leader may be made. -/
theorem recvElectionRsp (valid : Bool) (rsp : ElectionRsp) :
    J Unit (recvElectionRsp o valid rsp) := by
  refine h.bind (h.clerical.verifyMacAndOwnTerm _ _ _ _) fun verified ↦ h.ite ?_ (h.pure _)
  refine h.self (fun _ _ ↦ rfl) fun self ↦ h.ite (h.ite ?_ (h.pure _)) (h.pure _)
  exact h.bind (h.assign trivial fun _ _ ↦ rfl) fun _ ↦ h.self (fun _ _ ↦ rfl) fun _ ↦
    h.ite (h.bind h.heartbeat fun _ ↦ h.becomeLeader) (h.pure _)

end

end Walk

end TrustedDcr.Enclave
