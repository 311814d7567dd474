import TrustedDcr.Enclave.Frame
import Mathlib.Logic.Relation

/-!
# The moves a call is made of

One call can raise the term, take over entries, commit and send, one after the
other. `Move` lists everything a call can do to what its cluster sees, with what
the call has checked by then; `Goes` is a sequence of moves together with what
may enter `locked_events`. Every call is shown to be such a sequence, so that no
later proof unfolds a call again.
-/

namespace TrustedDcr.Enclave
open TrustedDcr.Msg TrustedDcr.Dcr TrustedDcr.Dcr.DcrWorkflow TrustedDcr.Theory

/-- What the cluster sees of a call so far. -/
structure View where
  node : Node
  sent : List Message
  drawn : List Uid

/-- The view of an enclave during a call. -/
def EnclaveState.view (s : EnclaveState) : View := ⟨s.self.node, s.sent, s.drawn⟩

/-! ### What the responses to LOCK requests do -/

/-- `recv_command_rsp` counts this response towards the locks of an attempt. -/
def Peer.countsLock (p : Peer) (rsp : CommandRsp) : Bool :=
  uidsEqual rsp.target p.id && p.role == .leader &&
    (rsp.success || uidsEqual rsp.leader emptyUid) && rsp.tag.type == .lock &&
    match p.existInLog rsp.tag with
    | some lockIndex =>
      match p.lockIsResolved lockIndex with
      | .ok resolved => !resolved
      | .error _ => false
    | none => false

/-- The response is a leader's, about a LOCK in its log that is not resolved. -/
theorem Peer.countsLock_iff {p : Peer} {rsp : CommandRsp} : p.countsLock rsp = true ↔
    rsp.target = p.id ∧ p.role = .leader ∧ (rsp.success = true ∨ rsp.leader = emptyUid) ∧
      rsp.tag.type = .lock ∧ ∃ lockIndex, p.existInLog rsp.tag = some lockIndex ∧
        p.lockIsResolved lockIndex = .ok false := by
  unfold Peer.countsLock
  cases p.existInLog rsp.tag with
  | none => simp
  | some lockIndex => cases h : p.lockIsResolved lockIndex <;> simp [and_assoc, h]

/-- The event a response comes from, as `peer_to_event_map` has it. -/
def Peer.eventOf (p : Peer) (source : Uid) : Uid := p.peerToEventMap.getD source emptyUid

/-- With the response counted, every lock is acquired. -/
def Peer.completesLocks (p : Peer) (rsp : CommandRsp) : Bool :=
  p.countsLock rsp &&
    { p with lockedEvents := p.lockedEvents.insert (p.eventOf rsp.source) }.locksAquired

/-! ### What the LOCK requests do -/

/-- `recv_command_req` admits this LOCK request. -/
def Peer.admitsLock (p : Peer) (req : CommandReq) : Bool :=
  uidsEqual req.target p.id && p.role == .leader && (p.existInLog req.tag).isNone &&
    req.tag.type == .lock &&
    (match p.hasUnresolvedLock with
    | .ok found => found.isNone
    | .error _ => false) &&
    (!uidsEqual req.event p.clusterEvent || (p.workflow.isEventEnabled p.clusterEvent).1)

/-- An own LOCK is admitted only when the event is enabled. -/
theorem Peer.enabled_of_admitsLock {p : Peer} {req : CommandReq} (h : p.admitsLock req = true)
    (own : req.event = p.clusterEvent) : (p.workflow.isEventEnabled p.clusterEvent).1 = true := by
  unfold Peer.admitsLock at h
  simpa [own] using (Bool.and_eq_true_iff.mp h).2

/-- The request is for the own event, which locks no other. -/
def Peer.executesAtOnce (p : Peer) (req : CommandReq) : Bool :=
  uidsEqual req.event p.clusterEvent && (p.workflow.getLockSet req.event).size == 0

/-! ### What the requests to append and their responses do -/

/-- `recv_append_req` reaches the entries of this request and appends them. -/
def Peer.accepts (p : Peer) (req : AppendReq) : Bool :=
  uidsEqual req.target p.id && (p.term < req.term || p.term == req.term && p.role == .follower) &&
    p.termAndIndexExistInLog req.prevTerm req.prevIndex

/-- The index `recv_append_rsp` tests for commitment. -/
def Peer.quorumIndex (p : Peer) (rsp : AppendRsp) : Except Fault Nat :=
  { p with indices := p.indices.insert rsp.source rsp.lastIndex }.largestMajorityIndex

/-- The index `recv_append_rsp` commits: the one tested, if the leader has an entry of its own term
there and it lies ahead. -/
def Peer.commits (p : Peer) (rsp : AppendRsp) : Option Nat :=
  if uidsEqual rsp.target p.id && p.role == .leader && rsp.term ≤ p.term && rsp.success then
    match p.quorumIndex rsp with
    | .ok index =>
      match p.log[index]? with
      | some e => if e.term = p.term ∧ p.commitIndex < index then some index else none
      | none => none
    | .error _ => none
  else none

/-- The append responses a leader commits on, and up to which index. -/
theorem Peer.commits_eq_some {p : Peer} {rsp : AppendRsp} {index : Nat} :
    p.commits rsp = some index ↔ (rsp.target = p.id ∧ p.role = .leader ∧ rsp.term ≤ p.term ∧
      rsp.success = true) ∧ p.quorumIndex rsp = .ok index ∧
      ∃ e, p.log[index]? = some e ∧ e.term = p.term ∧ p.commitIndex < index := by
  unfold Peer.commits
  constructor
  · intro h
    split at h
    · next hreached =>
      split at h
      · next i hi =>
        split at h
        · next e he =>
          split at h
          · next hahead =>
            obtain rfl := Option.some.inj h
            simp only [Bool.and_eq_true, uidsEqual_iff, beq_iff_eq, decide_eq_true_eq] at hreached
            exact ⟨by tauto, hi, e, he, hahead⟩
          · cases h
        · cases h
      · cases h
    · cases h
  · rintro ⟨⟨htarget, hleads, hterm, hgranted⟩, hindex, e, he, hahead⟩
    simp [htarget, hleads, hterm, hgranted, hindex, he, hahead]

/-! ### Moves -/

/-- Where an appended entry comes from: the message received by the call, the peer at its start
and the identifiers drawn in it. -/
inductive Origin (rcv : Option Message) (o : Oracle) (p : Peer) (drawn : List Uid) : Entry → Prop
  | request {req : CommandReq} (received : rcv = some (.commandReq req))
      (addressed : req.target = p.id) (leads : p.role = .leader)
      (fresh : p.existInLog req.tag = none)
      (lock : req.tag.type = .lock → p.admitsLock req = true ∧ p.executesAtOnce req = false) :
      Origin rcv o p drawn ⟨p.log.length, p.term, req.event, req.source, req.tag⟩
  | immediate {req : CommandReq} (received : rcv = some (.commandReq req))
      (admitted : p.admitsLock req = true) (atOnce : p.executesAtOnce req = true) :
      Origin rcv o p drawn ⟨p.log.length, p.term, req.event, req.source, ⟨req.tag.uid, .exec⟩⟩
  | executed {rsp : CommandRsp} (received : rcv = some (.commandRsp rsp))
      (complete : p.completesLocks rsp = true) :
      Origin rcv o p drawn ⟨p.log.length, p.term, p.clusterEvent, p.id, ⟨rsp.tag.uid, .exec⟩⟩
  | aborted {rsp : CommandRsp} (received : rcv = some (.commandRsp rsp))
      (type : rsp.tag.type = .abort) :
      Origin rcv o p drawn
        ⟨p.log.length, p.term, p.clusterEvent, p.id, ⟨o.junkEntry.tag.uid, .abort⟩⟩
  | checkpoint (received : rcv = none) (fresh : o.uid ∈ drawn) :
      Origin rcv o p drawn ⟨p.log.length, p.term, p.clusterEvent, p.id, ⟨o.uid, .checkpoint⟩⟩

/-- An appended entry is numbered by its position and of the peer's term. -/
theorem Origin.position {rcv : Option Message} {o : Oracle} {p : Peer} {drawn : List Uid} {e : Entry}
    (h : Origin rcv o p drawn e) : e.index = p.log.length ∧ e.term = p.term := by
  cases h <;> exact ⟨rfl, rfl⟩

/-- Entries are appended on commands and timeouts. -/
theorem Origin.letter_eq_none {rcv : Option Message} {o : Oracle} {p : Peer} {drawn : List Uid}
    {e : Entry} (origin : Origin rcv o p drawn e) : ∀ m, rcv = some m → m.letter = none := by
  intro m hm
  cases origin with
  | request received | immediate received | executed received | aborted received =>
    obtain rfl := Option.some.inj (received.symm.trans hm)
    rfl
  | checkpoint received => exact nomatch received.symm.trans hm

/-- The request replicates the leader's log from some position on. -/
def Slice (n : Node) (req : AppendReq) : Prop :=
  n.role = .leader ∧ req.commitIndex = n.commitIndex ∧ ∃ k prev, n.log[k]? = some prev ∧
    req.prevTerm = prev.term ∧ req.prevIndex = prev.index ∧ req.entries = n.log.drop (k + 1)

/-- The request names the candidate's last entry. -/
def Stands (n : Node) (req : ElectionReq) : Prop :=
  n.role = .candidate ∧ ∃ last, n.log.getLast? = some last ∧
    req.lastTerm = last.term ∧ req.lastIndex = last.index

/-- A letter in the peer's name and term, to another member or in answer to the received
letter. -/
def Addressed (rcv : Option Message) (n : Node) (l : Letter) : Prop :=
  l.source = n.id ∧ l.term = n.term ∧ (l.target ∈ n.clusterMembers ∧ l.target ≠ n.id ∨
    ∃ m r, rcv = some m ∧ m.letter = some r ∧ r.target = n.id ∧ r.source = l.target)

/-- The response refuses the received request, as one of an old term or because the log has no such
previous entry. -/
def Refuses (rcv : Option Message) (n : Node) (rsp : AppendRsp) : Prop :=
  rsp.success = false ∧ ∃ req, rcv = some (.appendReq req) ∧ (rsp.lastIndex = 0 ∨
    rsp.target = req.source ∧ rsp.prevIndex = req.prevIndex ∧ req.term = n.term ∧
      ∀ prev, n.log[req.prevIndex]? = some prev → prev.term ≠ req.prevTerm)

/-- What a peer says besides granting votes and confirming entries. -/
def Says (rcv : Option Message) (n : Node) (m : Message) : Prop :=
  (∀ l, m.letter = some l → Addressed rcv n l) ∧
    match m with
    | .appendReq req => Slice n req
    | .appendRsp rsp => Refuses rcv n rsp
    | .electionReq req => Stands n req
    | .electionRsp rsp => rsp.success = false
    | _ => True

/-- The node after taking over the entries of a request. -/
def Node.accept (n : Node) (req : AppendReq) : Node :=
  let log := n.log.take (req.prevIndex + 1) ++ req.entries
  { n with
    log := log
    commitIndex :=
      if req.commitIndex > n.commitIndex then min req.commitIndex (log.length - 1)
      else n.commitIndex }

/-- One thing a call does to its view, given the received message and the peer at its start. -/
inductive Move (rcv : Option Message) (o : Oracle) (p : Peer) : View → View → Prop
  | say {v : View} (ms : List Message) (ds : List Uid) (spoken : ∀ m ∈ ms, Says rcv v.node m) :
      Move rcv o p v ⟨v.node, v.sent ++ ms, v.drawn ++ ds⟩
  | bump {v : View} {m : Message} {l : Letter} (received : rcv = some m) (letter : m.letter = some l)
      (addressed : l.target = v.node.id) (higher : v.node.term < l.term) :
      Move rcv o p v { v with
        node := { v.node with
          term := l.term, role := .follower, endorsement := emptyUid, electionVotes := 1 } }
  | stand {v : View} (waits : v.node.role ≠ .leader) (known : v.node.term = p.term ∨
        ∃ m l, rcv = some m ∧ m.letter = some l ∧ v.node.term = l.term) :
      Move rcv o p v { v with
        node := { v.node with
          term := (v.node.term + 1) % 2 ^ 32
          role := .candidate
          endorsement := emptyUid
          electionVotes := 1 } }
  | grant {v : View} {req : ElectionReq} {last : Entry} (received : rcv = some (.electionReq req))
      (addressed : req.target = v.node.id) (term : req.term = v.node.term)
      (follows : v.node.role = .follower) (free : v.node.endorsement = emptyUid)
      (hlast : v.node.log.getLast? = some last)
      (ahead : logNotAhead last req.lastTerm req.lastIndex = true) :
      Move rcv o p v
        ⟨{ v.node with endorsement := req.source },
          v.sent ++ [.electionRsp ⟨req.source, v.node.id, v.node.term, true⟩], v.drawn⟩
  | count {v : View} {rsp : ElectionRsp} (received : rcv = some (.electionRsp rsp))
      (addressed : rsp.target = v.node.id) (term : rsp.term ≤ v.node.term)
      (stands : v.node.role = .candidate) (granted : rsp.success = true) (start : v.node = p.node) :
      Move rcv o p v { v with node := { v.node with electionVotes := v.node.electionVotes + 1 } }
  | elect {v : View} (stands : v.node.role = .candidate)
      (quorum : v.node.clusterSize / 2 < v.node.electionVotes) :
      Move rcv o p v { v with node := { v.node with role := .leader } }
  | append {v : View} {e : Entry} (leads : v.node.role = .leader) (log : v.node.log = p.log)
      (term : v.node.term = p.term) (origin : Origin rcv o p v.drawn e) :
      Move rcv o p v { v with node := { v.node with log := v.node.log ++ [e] } }
  | accept {v : View} {req : AppendReq} {prev : Entry} (received : rcv = some (.appendReq req))
      (addressed : req.target = v.node.id) (term : req.term = v.node.term)
      (follows : v.node.role = .follower) (opens : p.term < req.term ∨ p.role = .follower)
      (log : v.node.log = p.log) (hprev : v.node.log[req.prevIndex]? = some prev)
      (hterm : prev.term = req.prevTerm) :
      Move rcv o p v
        ⟨v.node.accept req,
          v.sent ++ [.appendRsp ⟨req.source, v.node.id, v.node.term, req.prevTerm, req.prevIndex,
            true, (v.node.accept req).log.length - 1⟩], v.drawn⟩
  | commit {v : View} {rsp : AppendRsp} {index : Nat} (received : rcv = some (.appendRsp rsp))
      (start : v.node = p.node) (commits : p.commits rsp = some index) :
      Move rcv o p v { v with node := { v.node with commitIndex := index } }
  | commitAlone {v : View} (leads : v.node.role = .leader) (alone : v.node.clusterSize = 1)
      (nonempty : v.node.log ≠ []) :
      Move rcv o p v { v with node := { v.node with commitIndex := v.node.log.length - 1 } }

/-- What may change about the locks of the own event: an id enters `locked_events` only with the
counted response the call received. -/
structure Locked (rcv : Option Message) (p : Peer) (s t : EnclaveState) : Prop where
  clusterEvent : t.self.clusterEvent = s.self.clusterEvent
  workflow : SameGraph s.self.workflow t.self.workflow
  mapped : ∀ {k v : Uid}, s.self.peerToEventMap[k]? = some v → t.self.peerToEventMap[k]? = some v
  locked : ∀ x ∈ t.self.lockedEvents, x ∈ s.self.lockedEvents ∨
    ∃ rsp, rcv = some (.commandRsp rsp) ∧ p.countsLock rsp = true ∧
      x = p.eventOf rsp.source ∧ t.self.peerToEventMap[rsp.source]? = some x

variable {rcv : Option Message} {o : Oracle} {p : Peer}

namespace Locked

/-- Nothing about the locks changes. -/
theorem of_eq {s t : EnclaveState} (clusterEvent : t.self.clusterEvent = s.self.clusterEvent)
    (workflow : t.self.workflow = s.self.workflow)
    (mapped : t.self.peerToEventMap = s.self.peerToEventMap)
    (locked : t.self.lockedEvents = s.self.lockedEvents) : Locked rcv p s t where
  clusterEvent := clusterEvent
  workflow := workflow ▸ SameGraph.refl _
  mapped h := mapped ▸ h
  locked _ hx := Or.inl (locked ▸ hx)

/-- Two calls that treat the locks as they may do so in a row. -/
protected theorem trans {s t u : EnclaveState} (st : Locked rcv p s t) (tu : Locked rcv p t u) :
    Locked rcv p s u where
  clusterEvent := tu.clusterEvent.trans st.clusterEvent
  workflow := st.workflow.trans tu.workflow
  mapped h := tu.mapped (st.mapped h)
  locked := by
    intro x hx
    rcases tu.locked x hx with hx | hx
    · rcases st.locked x hx with hx | ⟨rsp, hr, hc, he, hm⟩
      · exact Or.inl hx
      · exact Or.inr ⟨rsp, hr, hc, he, tu.mapped hm⟩
    · exact Or.inr hx

end Locked

/-- What executes committed entries leaves the locks of the own event alone. -/
theorem Executes.locked {entries : List Entry} {s t : EnclaveState} (h : Executes entries s t) :
    Locked rcv p s t where
  clusterEvent := h.clusterEvent
  workflow := (sameGraph_executeEntries _ entries).trans h.workflow.graph
  mapped := h.mapped
  locked _ hx := Or.inl (h.lockedEvents ▸ hx)

/-- Over a move the workflow executes what the peer newly commits. -/
def Replays (n n' : Node) (w w' : DcrWorkflow) : Prop :=
  SameReads (executeEntries w ((n'.log.take (n'.commitIndex + 1)).drop (n.commitIndex + 1))) w'

/-- Where nothing is committed nothing is executed. -/
theorem Replays.still {n n' : Node} {w w' : DcrWorkflow} (commitIndex : n'.commitIndex = n.commitIndex)
    (workflow : SameReads w w') : Replays n n' w w' := by
  unfold Replays
  rw [commitIndex, List.drop_of_length_le (List.length_take_le _ _)]
  exact workflow

/-- A move of the view, and what it executes. -/
def Turn (rcv : Option Message) (o : Oracle) (p : Peer) (v w : View × DcrWorkflow) : Prop :=
  Move rcv o p v.1 w.1 ∧ Replays v.1.node w.1.node v.2 w.2

/-- A sequence of moves that treats the locks as it may. -/
structure Goes (rcv : Option Message) (o : Oracle) (p : Peer) (s t : EnclaveState) : Prop where
  turns : Relation.ReflTransGen (Turn rcv o p) (s.view, s.self.workflow) (t.view, t.self.workflow)
  locked : Locked rcv p s t

namespace Goes

/-- No move at all. -/
protected theorem refl (s : EnclaveState) : Goes rcv o p s s :=
  ⟨.refl, Locked.of_eq rfl rfl rfl rfl⟩

/-- Moves followed by moves are moves. -/
protected theorem trans {s t u : EnclaveState} (st : Goes rcv o p s t) (tu : Goes rcv o p t u) :
    Goes rcv o p s u := ⟨st.turns.trans tu.turns, st.locked.trans tu.locked⟩

/-- The moves alone. -/
theorem moves {s t : EnclaveState} (h : Goes rcv o p s t) :
    Relation.ReflTransGen (Move rcv o p) s.view t.view :=
  h.turns.lift Prod.fst fun _ _ turn ↦ turn.1

end Goes

/-- Messages without a term are not about the log. -/
theorem Says.of_letter {n : Node} {m : Message} (h : m.letter = none) : Says rcv n m := by
  refine ⟨fun l he ↦ absurd (h.symm.trans he) (by simp), ?_⟩
  cases m <;> trivial

/-- A change outside log and locks sends nothing but commands. -/
theorem Aside.goes {s t : EnclaveState} (h : Aside s t) : Goes rcv o p s t where
  turns := by
    obtain ⟨ms, hms, hm⟩ := h.sent
    obtain ⟨ds, hds⟩ := h.drawn
    have hv : t.view = ⟨s.view.node, s.view.sent ++ ms, s.view.drawn ++ ds⟩ := by
      unfold EnclaveState.view
      rw [h.node, hms, hds]
    rw [hv]
    exact .single ⟨.say ms ds fun m hmem ↦ Says.of_letter (hm m hmem), .still rfl h.workflow⟩
  locked := h.locked

/-- A commitment, after the commands sent on it. -/
theorem Goes.of_commit {s u : EnclaveState} {index : Nat}
    (executes : Executes ((s.self.log.take (index + 1)).drop (s.self.commitIndex + 1)) s u)
    (move : Move rcv o p u.view { u.view with node := { u.view.node with commitIndex := index } }) :
    Goes rcv o p s { u with self := { u.self with commitIndex := index } } where
  turns := by
    obtain ⟨ms, hms, hm⟩ := executes.sent
    obtain ⟨ds, hds⟩ := executes.drawn
    have hv : u.view = ⟨s.view.node, s.view.sent ++ ms, s.view.drawn ++ ds⟩ := by
      unfold EnclaveState.view
      rw [executes.node, hms, hds]
    have say : Turn rcv o p (s.view, s.self.workflow) (u.view, s.self.workflow) := by
      rw [hv]
      exact ⟨.say ms ds fun m hmem ↦ Says.of_letter (hm m hmem), .still rfl (SameReads.refl _)⟩
    refine (Relation.ReflTransGen.single say).tail ⟨move, ?_⟩
    have hreads := executes.workflow
    rw [← show u.self.log = s.self.log from congrArg Node.log executes.node,
      ← show u.self.commitIndex = s.self.commitIndex from
        congrArg Node.commitIndex executes.node] at hreads
    exact hreads
  locked := executes.locked.trans (Locked.of_eq rfl rfl rfl rfl)

/-- A single move. -/
theorem Goes.of_move {s t : EnclaveState} (move : Move rcv o p s.view t.view)
    (replays : Replays s.self.node t.self.node s.self.workflow t.self.workflow)
    (locked : Locked rcv p s t) : Goes rcv o p s t := ⟨.single ⟨move, replays⟩, locked⟩

/-- A single move that commits nothing and leaves the workflow and the locks alone. -/
theorem Goes.of_still {s t : EnclaveState} (move : Move rcv o p s.view t.view)
    (commitIndex : t.self.commitIndex = s.self.commitIndex)
    (clusterEvent : t.self.clusterEvent = s.self.clusterEvent)
    (workflow : t.self.workflow = s.self.workflow)
    (mapped : t.self.peerToEventMap = s.self.peerToEventMap)
    (locked : t.self.lockedEvents = s.self.lockedEvents) : Goes rcv o p s t :=
  .of_move move (.still commitIndex (workflow ▸ SameReads.refl _))
    (Locked.of_eq clusterEvent workflow mapped locked)

/-- What a peer says leaves the rest of it alone. -/
theorem Goes.say {s : EnclaveState} {ms : List Message}
    (spoken : ∀ m ∈ ms, Says rcv s.self.node m) :
    Goes rcv o p s { s with sent := s.sent ++ ms } := by
  have hm : Move rcv o p s.view ⟨s.self.node, s.sent ++ ms, s.drawn ++ []⟩ := .say ms [] spoken
  rw [List.append_nil] at hm
  exact Goes.of_still hm rfl rfl rfl rfl rfl

/-- A slice of the log may be sent. -/
theorem Says.appendReq {n : Node} {req : AppendReq}
    (h : Addressed rcv n ⟨req.source, req.target, req.term⟩) (hs : Slice n req) :
    Says rcv n (.appendReq req) := ⟨fun _ hl ↦ Option.some.inj hl ▸ h, hs⟩

/-- Entries may be refused. -/
theorem Says.appendRsp {n : Node} {rsp : AppendRsp}
    (h : Addressed rcv n ⟨rsp.source, rsp.target, rsp.term⟩) (hs : Refuses rcv n rsp) :
    Says rcv n (.appendRsp rsp) := ⟨fun _ hl ↦ Option.some.inj hl ▸ h, hs⟩

/-- A poll may be called. -/
theorem Says.pollReq {n : Node} {req : PollReq}
    (h : Addressed rcv n ⟨req.source, req.target, req.term⟩) : Says rcv n (.pollReq req) :=
  ⟨fun _ hl ↦ Option.some.inj hl ▸ h, trivial⟩

/-- A poll may be answered either way. -/
theorem Says.pollRsp {n : Node} {rsp : PollRsp}
    (h : Addressed rcv n ⟨rsp.source, rsp.target, rsp.term⟩) : Says rcv n (.pollRsp rsp) :=
  ⟨fun _ hl ↦ Option.some.inj hl ▸ h, trivial⟩

/-- A candidate may ask for votes. -/
theorem Says.electionReq {n : Node} {req : ElectionReq}
    (h : Addressed rcv n ⟨req.source, req.target, req.term⟩) (hs : Stands n req) :
    Says rcv n (.electionReq req) := ⟨fun _ hl ↦ Option.some.inj hl ▸ h, hs⟩

/-- A vote may be refused. -/
theorem Says.electionRsp {n : Node} {rsp : ElectionRsp}
    (h : Addressed rcv n ⟨rsp.source, rsp.target, rsp.term⟩) (hs : rsp.success = false) :
    Says rcv n (.electionRsp rsp) := ⟨fun _ hl ↦ Option.some.inj hl ▸ h, hs⟩

/-- A single message. -/
theorem Goes.say_one {s : EnclaveState} {m : Message} (spoken : Says rcv s.self.node m) :
    Goes rcv o p s { s with sent := s.sent ++ [m] } :=
  Goes.say fun _ hm ↦ List.mem_singleton.mp hm ▸ spoken

/-- A call appends at most one entry, and otherwise changes the log only by accepting a request. -/
theorem log_of_moves {v w : View} (moves : Relation.ReflTransGen (Move rcv o p) v w)
    (start : v.node.log = p.log) : w.node.log = p.log ∨
      (∃ e ds, Origin rcv o p ds e ∧ ds <+: w.drawn ∧ w.node.log = p.log ++ [e]) ∨
      ∃ req, rcv = some (.appendReq req) ∧ req.target = w.node.id ∧
        w.node.log = p.log.take (req.prevIndex + 1) ++ req.entries ∧
        ∃ prev, p.log[req.prevIndex]? = some prev ∧ prev.term = req.prevTerm := by
  induction moves with
  | refl => exact Or.inl start
  | tail _ move ih =>
    cases move with
    | say ms ds =>
      refine ih.imp_right (Or.imp_left ?_)
      rintro ⟨e, es, horigin, hpre, hlog⟩
      exact ⟨e, es, horigin, hpre.trans (List.prefix_append _ _), hlog⟩
    | bump | stand | grant | count | elect | commit | commitAlone => exact ih
    | append leads log term origin =>
      exact Or.inr (Or.inl ⟨_, _, origin, List.prefix_rfl, congrArg (· ++ [_]) log⟩)
    | accept received addressed term follows opens log found =>
      rw [log] at found
      refine Or.inr (Or.inr ⟨_, received, addressed, ?_, _, found, by assumption⟩)
      rw [← log]
      rfl

/-- Without a request to append, entries are committed on a confirmation, or by a leader that is
alone. -/
theorem commitIndex_of_moves {v w : View} (moves : Relation.ReflTransGen (Move rcv o p) v w)
    (other : ∀ req, rcv ≠ some (.appendReq req)) (start : v.node.commitIndex = p.commitIndex) :
    w.node.commitIndex = p.commitIndex ∨ (∃ rsp, rcv = some (.appendRsp rsp) ∧
      p.commits rsp = some w.node.commitIndex) ∨ w.node.clusterSize = 1 := by
  induction moves with
  | refl => exact Or.inl start
  | tail _ move ih =>
    cases move with
    | say | bump | stand | grant | count | elect | append => exact ih
    | accept received => exact absurd received (other _)
    | commit received _ commits => exact Or.inr (Or.inl ⟨_, received, commits⟩)
    | commitAlone _ alone => exact Or.inr (Or.inr alone)

/-- What a call has sent stays sent. -/
theorem sent_of_moves {v w : View} (moves : Relation.ReflTransGen (Move rcv o p) v w) :
    v.sent <+: w.sent := by
  induction moves with
  | refl => exact List.prefix_rfl
  | tail _ move ih =>
    cases move with
    | say | grant | accept => exact ih.trans (List.prefix_append _ _)
    | bump | stand | count | elect | append | commit | commitAlone => exact ih

/-- A leader that was sent no letter leads until the end of its call. -/
theorem leads_of_moves {v w : View} (noLetter : ∀ m, rcv = some m → m.letter = none)
    (leads : v.node.role = .leader) (moves : Relation.ReflTransGen (Move rcv o p) v w) :
    w.node.role = .leader ∧ w.node.term = v.node.term := by
  induction moves with
  | refl => exact ⟨leads, rfl⟩
  | tail _ move ih =>
    obtain ⟨hrole, hterm⟩ := ih
    cases move with
    | bump received letter => exact nomatch (noLetter _ received).symm.trans letter
    | stand waits => exact absurd hrole waits
    | _ => exact ⟨by first | exact hrole | rfl, hterm⟩

end TrustedDcr.Enclave
