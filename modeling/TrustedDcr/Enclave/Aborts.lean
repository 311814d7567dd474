import TrustedDcr.Enclave.Resolution

/-!
# Aborts

An abort releases the locks, appends its entry and goes over the lock set. It asks
for each event whether its own id is a key of `missing_resp`, while the keys are the
ids of peers.
-/

namespace TrustedDcr.Enclave
open TrustedDcr.Msg TrustedDcr.Dcr TrustedDcr.Dcr.DcrWorkflow TrustedDcr.Theory

variable {o : Oracle}

/-! ### Appended entries -/

section
variable {s : EnclaveState} {entry : Entry}

/-- A commit index at which nothing is newly committed is set, and that is all. -/
theorem updateCommitIndex_of_none {newIndex : Nat} (h : newIndex ≤ s.self.commitIndex) :
    updateCommitIndex o newIndex s =
      .ok (⟨⟩, { s with self := { s.self with commitIndex := newIndex } }) := by
  have none : newlyCommitted s.self newIndex = .ok [] := by
    unfold newlyCommitted
    rw [Nat.sub_eq_zero_of_le h]
    rfl
  unfold updateCommitIndex
  rw [getSelf_bind, bind_lift_of_ok none]
  split
  · rfl
  · unfold commitEntries
    change Except.ok (PUnit.unit, { s with
      self := { s.self with commitIndex := newIndex }, sent := s.sent ++ [] }) = _
    rw [List.append_nil]

/-- The last entry goes out in append requests only, and nothing else changes. -/
theorem broadcastLast_spec : wp broadcastLast (fun _ t ↦ ∃ ms,
    (∀ m ∈ ms, ∃ req, m = .appendReq req) ∧ t = { s with sent := s.sent ++ ms }) s := by
  unfold broadcastLast
  rw [wp_bind, wp_getSelf, wp_ite]
  constructor
  · intro _
    rw [wp_bind, wp_lift]
    intro prev _
    rw [wp_bind, wp_lift]
    intro last _
    rw [wp_macAndBroadcastMsgs]
    refine ⟨_, fun m hm ↦ ?_, rfl⟩
    obtain ⟨member, -, rfl⟩ := List.mem_map.mp hm
    exact ⟨_, rfl⟩
  · intro _
    exact wp_pure.mpr ⟨[], (fun _ hm ↦ nomatch hm), by rw [List.append_nil]⟩

/-- Where nothing is committed with it, an entry is appended and sent to the other members. -/
theorem appendToLog_of_uncommitted
    (plain : s.self.clusterSize = 1 → s.self.log.length ≤ s.self.commitIndex) :
    wp (appendToLog o entry) (fun _ t ↦ ∃ commit tMin timer ms,
      (∀ m ∈ ms, ∃ req, m = .appendReq req) ∧ t = { s with
        self := { s.self with
          log := s.self.log ++ [entry], commitIndex := commit, tMin := tMin, t := timer }
        sent := s.sent ++ ms }) s := by
  unfold appendToLog
  rw [wp_bind, wp_modifySelf, wp_bind, wp_getSelf, wp_ite]
  constructor
  · intro alone _ t ht
    rw [updateCommitIndex_of_none (by simpa using plain alone)] at ht
    obtain ⟨⟩ := ht
    exact ⟨_, _, _, [], (fun _ hm ↦ nomatch hm), by rw [List.append_nil]⟩
  · intro _
    rw [wp_bind]
    refine wp_mono broadcastLast_spec ?_
    rintro _ _ ⟨ms, hms, rfl⟩
    unfold updateTimeout
    rw [wp_modifySelf]
    split
    · exact ⟨_, _, _, ms, hms, rfl⟩
    · exact ⟨_, _, _, ms, hms, rfl⟩

private theorem returns_appendToLog_of_uncommitted
    (plain : s.self.clusterSize = 1 → s.self.log.length ≤ s.self.commitIndex)
    (nonempty : s.self.log ≠ []) : Returns (appendToLog o entry) s := by
  have pos := List.length_pos_of_ne_nil nonempty
  unfold appendToLog
  apply returns_bind_modifySelf
  intro t ht
  have length : t.self.log.length = s.self.log.length + 1 := by
    rw [ht]
    simp
  apply returns_bind_getSelf
  apply Returns.ite
  · intro alone
    have committed : t.self.log.length - 1 ≤ t.self.commitIndex := by
      rw [ht] at alone ⊢
      simpa using plain alone
    exact ⟨_, _, updateCommitIndex_of_none committed⟩
  · intro _
    exact (returns_broadcastLast (by omega)).bind_total fun _ ↦ total_updateTimeout

/-- An EXEC entry is appended, and committed by a peer that is alone, without a filing. -/
theorem appendToLog_of_exec (exec : entry.tag.type = .exec)
    (settled : s.self.clusterSize = 1 → s.self.log.length = s.self.commitIndex + 1) :
    wp (appendToLog o entry) (fun _ t ↦ t.self.missingResp = s.self.missingResp) s := by
  by_cases alone : s.self.clusterSize = 1
  · unfold appendToLog
    rw [wp_bind, wp_modifySelf, wp_bind, wp_getSelf, if_pos alone]
    unfold updateCommitIndex
    rw [wp_bind, wp_getSelf, wp_bind, wp_lift]
    intro committed hcommitted
    have hsection : committed = [entry] := by
      rw [newlyCommitted_ok hcommitted]
      dsimp only
      rw [List.take_of_length_le (by simp), ← settled alone, List.drop_left]
    subst hsection
    rw [wp_ite]
    constructor
    · intro _
      rw [wp_bind, wp_modifySelf, wp_modifySelf]
    · intro _
      have commits : wp (commitEntries o 0 [entry])
          (fun _ t ↦ t.self.missingResp = s.self.missingResp)
          { s with self := { s.self with log := s.self.log ++ [entry] } } := by
        unfold commitEntries
        rw [if_neg (by simp [exec]), if_pos exec, wp_bind, wp_modifySelf, wp_bind, wp_getSelf,
          if_neg (by simp [exec]), if_neg (by simp [exec]), wp_bind, wp_pure]
        unfold commitEntries
        rw [wp_bind, wp_pure]
        exact wp_pure.mpr rfl
      rw [wp_bind]
      refine wp_mono commits fun _ t ht ↦ ?_
      rw [wp_bind, wp_macAndBroadcastMsgs, wp_modifySelf]
      exact ht
  · refine wp_mono (appendToLog_of_uncommitted fun h ↦ absurd h alone) ?_
    rintro _ _ ⟨_, _, _, _, -, rfl⟩
    rfl

/-- Without a lock held no ABORT entry is committed: the log is read at position -1. -/
theorem not_returns_commitEntries (round : Nat) {entries : List Entry}
    (released : s.self.lockedEntryIndex = -1) (abort : ∃ e ∈ entries, e.tag.type = .abort) :
    wp (commitEntries o round entries) (fun _ _ ↦ False) s := by
  induction entries generalizing round s with
  | nil => exact nomatch abort
  | cons first entries ih =>
    have one : wp (commitEntry o round first) (fun _ t ↦
        t.self.lockedEntryIndex = -1 ∧ first.tag.type ≠ .abort) s := by
      refine wp_commitEntry ?_ ?_ ?_ ?_ ?_
      · exact fun type ↦ ⟨released, by simp [type]⟩
      · intro type _
        unfold sendLockRequests
        rw [wp_bind, wp_getSelf]
        refine wp_mono (filed_sendCommands _ _ s) ?_
        rintro _ _ ⟨u, ⟨⟨leaders, rfl⟩, -⟩, rfl⟩
        exact ⟨released, by simp [type]⟩
      · exact fun type _ ↦ ⟨released, by simp [type]⟩
      · exact fun type ↦ ⟨released, by simp [type]⟩
      · intro _ locked hlocked
        have := (entryAtInt_ok hlocked).1
        omega
    rw [wp_commitEntries_cons]
    refine wp_mono one fun _ t ⟨ht, other⟩ ↦ ?_
    obtain ⟨e, he, type⟩ := abort
    rcases List.mem_cons.mp he with rfl | he
    · exact absurd type other
    · exact ih _ ht ⟨e, he, type⟩

/-- So a leader that is alone cannot append one. -/
theorem not_returns_appendToLog (alone : s.self.clusterSize = 1) (leads : s.self.role = .leader)
    (released : s.self.lockedEntryIndex = -1) (inside : s.self.commitIndex < s.self.log.length)
    (abort : entry.tag.type = .abort) : wp (appendToLog o entry) (fun _ _ ↦ False) s := by
  unfold appendToLog
  refine wp_bind_modifySelf fun t ht ↦ ?_
  rw [wp_bind, wp_getSelf, if_pos (by rw [ht]; exact alone)]
  unfold updateCommitIndex
  rw [wp_bind, wp_getSelf, wp_bind, wp_lift]
  intro committed hcommitted
  have last : entry ∈ committed := by
    rw [newlyCommitted_ok hcommitted, ht]
    dsimp only
    rw [List.take_of_length_le (by simp), List.drop_append_of_le_length (by omega)]
    simp
  rw [if_neg (by rw [ht]; simp [leads]), wp_bind]
  refine wp_mono (not_returns_commitEntries 0 ?_ ⟨entry, last, abort⟩) fun _ _ h ↦ h.elim
  rw [ht]
  exact released

end

/-! ### Aborts -/

/-- The events that an abort does not pass over: one is passed over when its own id is a key of
`missing_resp` at its turn, where each request before it has entered its target.
`src/enclave/enclave.cpp:325–347`. -/
def eventsToAbort (leader : Uid → Uid) (filed : Uid → Bool) : List Uid → List Uid
  | [] => []
  | event :: events =>
    if filed event then eventsToAbort leader filed events
    else event :: eventsToAbort leader (fun k ↦ leader event == k || filed k) events

/-- No event is passed over where none is a key and none is the id of a leader. -/
theorem eventsToAbort_eq_self {leader : Uid → Uid} {filed : Uid → Bool} {events : List Uid}
    (unfiled : ∀ e ∈ events, filed e = false)
    (unnamed : ∀ e ∈ events, ∀ e' ∈ events, leader e ≠ e') :
    eventsToAbort leader filed events = events := by
  induction events generalizing filed with
  | nil => rfl
  | cons event events ih =>
    rw [eventsToAbort, if_neg (by simp [unfiled event List.mem_cons_self])]
    congr 1
    refine ih (fun e he ↦ ?_) fun e he e' he' ↦
      unnamed e (List.mem_cons_of_mem _ he) e' (List.mem_cons_of_mem _ he')
    rw [Bool.or_eq_false_iff, beq_eq_false_iff_ne]
    exact ⟨unnamed event List.mem_cons_self e (List.mem_cons_of_mem _ he),
      unfiled e (List.mem_cons_of_mem _ he)⟩

namespace Peer

/-- `self.leader_map[event]`. -/
def namedLeader (p : Peer) (event : Uid) : Uid := p.leaderMap.getD event emptyUid

/-- The events of a lock set that an abort would send requests for. -/
def toAbort (p : Peer) (events : List Uid) : List Uid :=
  eventsToAbort p.namedLeader (fun k ↦ k ∈ p.missingResp) events

/-- The ABORT request to the leader named for an event. -/
def abortRequest (p : Peer) (tagId event : Uid) : CommandReq :=
  p.command ⟨tagId, .abort⟩ (p.namedLeader event)

/-- The requests of an abort over the events. -/
def aborts (p : Peer) (tagId : Uid) (events : List Uid) : List CommandReq :=
  (p.toAbort events).map (p.abortRequest tagId)

/-- An abort sends one peer one and the same request. -/
theorem distinct_aborts (p : Peer) (tagId : Uid) (events : List Uid) :
    Distinct (p.aborts tagId events) := by
  unfold aborts
  rw [show p.abortRequest tagId = p.command ⟨tagId, .abort⟩ ∘ p.namedLeader from rfl,
    ← List.map_map]
  exact p.distinct_map_command _ _

end Peer

/-- The requests of an abort are filed in turn, and the events without a leader have none. -/
def Recalled (reqs : List CommandReq) (s t : EnclaveState) : Prop :=
  (∃ leaders, t = { s with self := { s.self with
    leaderMap := leaders
    missingResp := fileAll reqs s.self.missingResp } }) ∧
  t.self.namedLeader = s.self.namedLeader

namespace Recalled

variable {s t u : EnclaveState} {reqs reqs' : List CommandReq}

/-- The requests of two recalls in a row are those of both. -/
protected theorem trans (st : Recalled reqs s t) (tu : Recalled reqs' t u) :
    Recalled (reqs ++ reqs') s u := by
  obtain ⟨⟨_, rfl⟩, hst⟩ := st
  obtain ⟨⟨leaders, rfl⟩, htu⟩ := tu
  refine ⟨⟨leaders, ?_⟩, htu.trans hst⟩
  unfold fileAll
  rw [List.foldl_append]

/-- The requests still to come are the same. -/
theorem abortRequest (h : Recalled reqs s t) (tagId : Uid) :
    t.self.abortRequest tagId = s.self.abortRequest tagId := by
  obtain ⟨⟨leaders, rfl⟩, same⟩ := h
  funext event
  exact congrArg (s.self.command ⟨tagId, .abort⟩) (congrFun same event)

/-- Nothing else changed. -/
theorem aborts (h : Recalled [] s t) (tagId : Uid) : t.self.aborts tagId = s.self.aborts tagId := by
  funext events
  unfold Peer.aborts Peer.toAbort
  rw [h.abortRequest, h.2]
  obtain ⟨⟨leaders, rfl⟩, -⟩ := h
  rfl

end Recalled

/-- Looking up a leader enters the empty one at most. -/
theorem leaderMapAt_eq (event : Uid) (s : EnclaveState) : ∃ t,
    leaderMapAt event s = .ok (s.self.namedLeader event, t) ∧ Recalled [] s t := by
  unfold leaderMapAt Peer.namedLeader
  rw [getSelf_bind, Std.ExtTreeMap.getD_eq_getD_getElem?]
  cases hleader : s.self.leaderMap[event]? with
  | some leader => exact ⟨s, rfl, ⟨_, rfl⟩, rfl⟩
  | none =>
    refine ⟨_, rfl, ⟨_, rfl⟩, ?_⟩
    funext e
    unfold Peer.namedLeader
    dsimp only
    rw [getD_insert_uid]
    split
    · next he =>
      rw [← he, Std.ExtTreeMap.getD_eq_getD_getElem?, hleader]
      rfl
    · rfl

/-- Looking a leader up gives the one named and recalls nothing. -/
theorem recalled_leaderMapAt (event : Uid) (s : EnclaveState) :
    wp (leaderMapAt event)
      (fun leader t ↦ leader = s.self.namedLeader event ∧ Recalled [] s t) s := by
  obtain ⟨t, ht, hst⟩ := leaderMapAt_eq event s
  intro leader u hu
  rw [ht] at hu
  obtain ⟨⟩ := hu
  exact ⟨rfl, hst⟩

/-- The body of the loop: an event is passed over, or its request is sent and filed; the rest of the
loop finds it filed. -/
theorem recalled_abortCommand (tagId event : Uid) (s : EnclaveState) :
    wp (abortCommand tagId event) (fun ms t ↦ ∃ reqs, ms = reqs.map .commandReq ∧
      Recalled reqs s t ∧ ∀ events,
        s.self.aborts tagId (event :: events) = reqs ++ t.self.aborts tagId events) s := by
  unfold abortCommand
  rw [wp_bind]
  refine wp_mono (recalled_leaderMapAt event s) ?_
  rintro _ _ ⟨rfl, ⟨leaders, rfl⟩, same⟩
  rw [wp_bind, wp_getSelf, wp_ite]
  constructor
  · intro (waits : event ∈ s.self.missingResp)
    refine wp_pure.mpr ⟨[], rfl, ⟨⟨leaders, rfl⟩, same⟩, fun events ↦ ?_⟩
    rw [List.nil_append, Recalled.aborts ⟨⟨leaders, rfl⟩, same⟩]
    unfold Peer.aborts Peer.toAbort
    rw [eventsToAbort, if_pos (decide_eq_true waits)]
  · intro (free : event ∉ s.self.missingResp)
    rw [wp_bind, wp_modifySelf, wp_pure]
    have filed : Recalled [s.self.abortRequest tagId event] s { s with self := { s.self with
        leaderMap := leaders
        missingResp := fileAll [s.self.abortRequest tagId event] s.self.missingResp } } :=
      ⟨⟨leaders, rfl⟩, same⟩
    refine ⟨[s.self.abortRequest tagId event], rfl, filed, fun events ↦ ?_⟩
    change _ = _ ++ ({ s.self with
      leaderMap := leaders
      missingResp := fileAll [s.self.abortRequest tagId event] s.self.missingResp } :
        Peer).aborts tagId events
    have keys : (fun k ↦ s.self.namedLeader event == k || decide (k ∈ s.self.missingResp)) =
        fun k ↦ decide (k ∈ fileAll [s.self.abortRequest tagId event] s.self.missingResp) := by
      funext k
      unfold fileAll
      rw [List.foldl_cons, List.foldl_nil, Bool.eq_iff_iff]
      simp [Peer.abortRequest, Peer.command]
    unfold Peer.aborts Peer.toAbort
    rw [filed.abortRequest, filed.2, eventsToAbort, if_neg (by simpa using free), keys]
    rfl

/-- What the loop of an abort sends and files. -/
theorem recalled_mapM_abortCommand (tagId : Uid) (events : List Uid) (s : EnclaveState) :
    wp (events.mapM (abortCommand tagId)) (fun mss t ↦
      mss.flatten = (s.self.aborts tagId events).map .commandReq ∧
      Recalled (s.self.aborts tagId events) s t) s := by
  induction events generalizing s with
  | nil => exact wp_pure.mpr ⟨rfl, ⟨_, rfl⟩, rfl⟩
  | cons event events ih =>
    rw [List.mapM_cons, wp_bind]
    refine wp_mono (recalled_abortCommand tagId event s) ?_
    rintro _ t ⟨reqs, rfl, hst, rest⟩
    rw [wp_bind]
    refine wp_mono (ih t) ?_
    rintro mss u ⟨hmss, htu⟩
    rw [wp_pure, rest, List.flatten_cons, hmss, List.map_append]
    exact ⟨rfl, hst.trans htu⟩

/-- The ABORT entry of an abort. `src/enclave/enclave.cpp:314–323`. -/
def Peer.abortEntry (p : Peer) (tagId : Uid) : Entry :=
  ⟨p.log.length, p.term, p.clusterEvent, p.id, ⟨tagId, .abort⟩⟩

/-- What an abort appends, sends and files, when nothing is committed with its entry. -/
theorem abortExecution_of_uncommitted (tagId : Uid) {s : EnclaveState}
    (plain : s.self.clusterSize = 1 → s.self.log.length ≤ s.self.commitIndex) :
    wp (abortExecution o tagId) (fun _ t ↦
      t.self.log = s.self.log ++ [s.self.abortEntry tagId] ∧
      t.self.missingResp = fileAll (s.self.aborts tagId
        (s.self.workflow.getLockSet s.self.clusterEvent).toList) s.self.missingResp ∧
      ∃ ms, (∀ m ∈ ms, ∃ req, m = .appendReq req) ∧
        t.sent = s.sent ++ ms ++ (s.self.aborts tagId
          (s.self.workflow.getLockSet s.self.clusterEvent).toList).map .commandReq) s := by
  unfold abortExecution
  rw [wp_bind, wp_modifySelf, wp_bind, wp_getSelf, wp_bind]
  refine wp_mono (appendToLog_of_uncommitted plain) ?_
  rintro _ _ ⟨commit, tMin, timer, ms, hms, rfl⟩
  rw [wp_bind, wp_getSelf, wp_bind]
  refine wp_mono (recalled_mapM_abortCommand tagId _ _) ?_
  rintro mss _ ⟨hmss, ⟨leaders, rfl⟩, -⟩
  rw [wp_macAndBroadcastMsgs, hmss]
  exact ⟨rfl, rfl, ms, hms, rfl⟩

/-- The abort of a leader that is alone has no result. -/
theorem not_returns_abortExecution (tagId : Uid) {s : EnclaveState} (alone : s.self.clusterSize = 1)
    (leads : s.self.role = .leader) (inside : s.self.commitIndex < s.self.log.length) :
    wp (abortExecution o tagId) (fun _ _ ↦ False) s := by
  unfold abortExecution
  rw [wp_bind, wp_modifySelf, wp_bind, wp_getSelf, wp_bind]
  exact wp_mono (not_returns_appendToLog alone leads rfl inside rfl) fun _ _ h ↦ h.elim

/-- The ABORT response of the source starts an abort: the locked entry is of the event named for the
source, and of the own event. `src/enclave/enclave.cpp:609–613`. -/
def Peer.startsAbort (p : Peer) (source : Uid) : Bool :=
  match p.entryAtInt p.lockedEntryIndex with
  | .ok locked =>
    uidsEqual locked.event (p.namedLeader source) &&
      uidsEqual locked.event p.clusterEvent
  | .error _ => false

/-- The ABORT case is an abort with the identifier of an entry that was never set. -/
theorem recvAbortRsp_of_starts {rsp : CommandRsp} {s : EnclaveState}
    (starts : s.self.startsAbort rsp.source = true) : ∃ t, Recalled [] s t ∧
      recvAbortRsp o rsp s = abortExecution o o.junkEntry.tag.uid t := by
  obtain ⟨t, ht, hst⟩ := leaderMapAt_eq rsp.source s
  refine ⟨t, hst, ?_⟩
  unfold recvAbortRsp
  rw [bind_of_ok ht, getSelf_bind]
  have hread : t.self.entryAtInt t.self.lockedEntryIndex =
      s.self.entryAtInt s.self.lockedEntryIndex := by
    obtain ⟨⟨_, rfl⟩, -⟩ := hst
    rfl
  have own : t.self.clusterEvent = s.self.clusterEvent := by
    obtain ⟨⟨_, rfl⟩, -⟩ := hst
    rfl
  unfold Peer.startsAbort at starts
  cases hlocked : s.self.entryAtInt s.self.lockedEntryIndex with
  | error =>
    rw [hlocked] at starts
    exact nomatch starts
  | ok locked =>
    rw [hlocked] at starts hread
    obtain ⟨named, executing⟩ := Bool.and_eq_true_iff.mp starts
    rw [bind_lift_of_ok hread, if_neg (by simpa using named)]
    refine (bind_lift_of_ok (a := true) ?_).trans (if_pos rfl ▸ rfl)
    unfold Peer.executingOwnEvent
    rw [hread, own]
    exact congrArg Except.ok executing

/-- Any other ABORT response looks up a leader at most. -/
theorem recvAbortRsp_of_not_starts {rsp : CommandRsp} {s : EnclaveState}
    (other : s.self.startsAbort rsp.source = false) :
    wp (recvAbortRsp o rsp) (fun _ t ↦ Recalled [] s t) s := by
  unfold recvAbortRsp
  rw [wp_bind]
  refine wp_mono (recalled_leaderMapAt rsp.source s) ?_
  rintro _ t ⟨rfl, hst⟩
  rw [wp_bind, wp_getSelf, wp_bind, wp_lift]
  intro locked hlocked
  rw [wp_ite]
  refine ⟨fun _ ↦ wp_pure.mpr hst, fun named ↦ ?_⟩
  rw [wp_bind, wp_lift]
  intro own hown
  rw [wp_ite]
  constructor
  · rintro rfl
    unfold Peer.executingOwnEvent at hown
    rw [hlocked] at hown
    have executing : uidsEqual locked.event t.self.clusterEvent = true := Except.ok.inj hown
    obtain ⟨⟨_, rfl⟩, -⟩ := hst
    unfold Peer.startsAbort at other
    rw [show s.self.entryAtInt s.self.lockedEntryIndex = .ok locked from hlocked] at other
    dsimp only at other executing
    rw [executing, Bool.and_true] at other
    exact absurd other (by simpa using named)
  · intro _
    rw [wp_ite]
    refine ⟨fun unset ↦ ?_, fun _ ↦ wp_pure.mpr hst⟩
    have := (entryAtInt_ok hlocked).1
    omega

/-! ### Completeness of an abort -/

private theorem returns_abortExecution_of_uncommitted (tagId : Uid) {s : EnclaveState}
    (plain : s.self.clusterSize = 1 → s.self.log.length ≤ s.self.commitIndex)
    (nonempty : s.self.log ≠ []) : Returns (abortExecution o tagId) s := by
  apply returns_bind_modifySelf
  intro t ht
  apply returns_bind_getSelf
  apply Returns.bind_total (returns_appendToLog_of_uncommitted _ _)
  · intro _
    apply total_getSelf.bind
    intro self
    apply Total.bind (Total.mapM fun event _ ↦ total_abortCommand tagId event)
    exact fun reqs ↦ total_macAndBroadcastMsgs _
  · rw [ht]
    exact plain
  · rw [ht]
    exact nonempty

namespace Peer

/-- A LOCK request is outstanding from a peer of the event. -/
def LockPending (p : Peer) (event : Uid) : Prop :=
  ∃ (k : Uid) (req : CommandReq), p.peerToEventMap[k]? = some event ∧
    p.missingResp[k]? = some req ∧ req.tag.type = .lock

/-- The message is an ABORT request to a peer of the event. -/
def abortsTo (p : Peer) (event : Uid) : Message → Bool
  | .commandReq req => req.tag.type == .abort && p.peerToEventMap[req.target]? == some event
  | _ => false

/-- The abort of the attempt `u` is logged and asks the clusters of the lock set, except those whose
LOCK request is unanswered. -/
structure AbortsCompletely (p : Peer) (u : Uid) (t : EnclaveState) : Prop where
  entry : t.self.log = p.log ++ [p.abortEntry u]
  uid : ∀ req, .commandReq req ∈ t.sent → req.tag.type = .abort → req.tag.uid = u
  waits : ∀ x ∈ p.workflow.getLockSet p.clusterEvent, p.LockPending x →
    t.sent.countP (p.abortsTo x) = 0 ∧ ∀ (k : Uid) req, p.peerToEventMap[k]? = some x →
      p.missingResp[k]? = some req → req.tag.type = .lock → t.self.missingResp[k]? = some req
  asks : ∀ x ∈ p.workflow.getLockSet p.clusterEvent, ¬p.LockPending x →
    t.sent.countP (p.abortsTo x) = 1 ∧ ∀ req, .commandReq req ∈ t.sent →
      p.abortsTo x (.commandReq req) = true → t.self.missingResp[req.target]? = some req

/-- Each event of the lock set has one of its own peers for its leader, and none bears the id of a
peer that is asked for something or leads one of them. -/
structure LedLockSet (p : Peer) : Prop where
  own : ∀ x ∈ p.workflow.getLockSet p.clusterEvent, p.peerToEventMap[p.namedLeader x]? = some x
  unfiled : ∀ x ∈ p.workflow.getLockSet p.clusterEvent, x ∉ p.missingResp
  unnamed : ∀ x ∈ p.workflow.getLockSet p.clusterEvent,
    ∀ y ∈ p.workflow.getLockSet p.clusterEvent, p.namedLeader x ≠ y

end Peer

section
variable {p : Peer} {valid : Bool} {rsp : CommandRsp}

/-- The requests of the abort that the response starts. -/
def Peer.recalls (p : Peer) (o : Oracle) (rsp : CommandRsp) : List CommandReq :=
  { p with missingResp := p.cleared rsp }.aborts o.junkEntry.tag.uid
    (p.workflow.getLockSet p.clusterEvent).toList

/-- The response that starts an abort has a result unless its entry is to be committed, and what it
appends, sends and files then. -/
theorem recvCommandRsp_of_starts (handles : p.Handles valid rsp) (type : rsp.tag.type = .abort)
    (starts : p.startsAbort rsp.source = true) :
    wp (recvCommandRsp o valid rsp) (fun _ t ↦
      t.self.log = p.log ++ [p.abortEntry o.junkEntry.tag.uid] ∧
      t.self.missingResp = fileAll (p.recalls o rsp) (p.cleared rsp) ∧
      ∃ ms, (∀ m ∈ ms, ∃ req, m = .appendReq req) ∧
        t.sent = ms ++ (p.recalls o rsp).map .commandReq) ⟨p, [], [], []⟩ ∧
    (Returns (recvCommandRsp o valid rsp) ⟨p, [], [], []⟩ ↔
      (p.clusterSize = 1 → p.log.length ≤ p.commitIndex)) := by
  obtain ⟨u, hu, he⟩ := recvAbortRsp_of_starts (o := o) (s := ⟨{ p with
    missingResp := p.cleared rsp }, [], [], []⟩) starts
  have call := recvCommandRsp_of_handles (o := o) (s := ⟨p, [], [], []⟩) handles
  rw [type] at call
  replace call := call.trans he
  have recalls : u.self.aborts o.junkEntry.tag.uid
      (u.self.workflow.getLockSet u.self.clusterEvent).toList = p.recalls o rsp := by
    rw [hu.aborts]
    obtain ⟨⟨_, rfl⟩, -⟩ := hu
    rfl
  have nonempty : p.log ≠ [] := by
    intro empty
    unfold Peer.startsAbort Peer.entryAtInt Peer.entryAt at starts
    rw [empty] at starts
    cases hlocked : decide (p.lockedEntryIndex < 0) <;> simp_all
  obtain ⟨⟨leaders, hleaders⟩, -⟩ := hu
  unfold Returns wp
  rw [call]
  by_cases plain : p.clusterSize = 1 → p.log.length ≤ p.commitIndex
  · have plain' : u.self.clusterSize = 1 → u.self.log.length ≤ u.self.commitIndex := by
      rw [hleaders]
      exact plain
    refine ⟨fun _ t ht ↦ ?_, iff_of_true ?_ plain⟩
    · obtain ⟨hlog, hmissing, ms, hms, hsent⟩ :=
        abortExecution_of_uncommitted _ plain' _ t ht
      rw [recalls] at hmissing hsent
      rw [hlog, hmissing, hsent, hleaders]
      exact ⟨rfl, rfl, ms, hms, rfl⟩
    · apply returns_abortExecution_of_uncommitted _ plain'
      rw [hleaders]
      exact nonempty
  · have faults : wp (abortExecution o o.junkEntry.tag.uid) (fun _ _ ↦ False) u := by
      apply not_returns_abortExecution
      · rw [hleaders]
        tauto
      · rw [hleaders]
        exact handles.2.2.1
      · rw [hleaders]
        exact Nat.lt_of_not_le fun h ↦ plain fun _ ↦ h
    refine ⟨fun a t ht ↦ (faults a t ht).elim, iff_of_false ?_ plain⟩
    rintro ⟨a, t, ht⟩
    exact faults a t ht

/-- Each event of a lock set with known leaders is sent one ABORT request. -/
theorem countP_abortsTo (led : p.LedLockSet) {ms : List Message}
    (appends : ∀ m ∈ ms, ∃ req, m = .appendReq req) {x : Uid}
    (hx : x ∈ p.workflow.getLockSet p.clusterEvent) :
    (ms ++ (p.recalls o rsp).map Message.commandReq).countP (p.abortsTo x) = 1 := by
  have others : ms.countP (p.abortsTo x) = 0 := by
    rw [List.countP_eq_zero]
    intro m hm
    obtain ⟨req, rfl⟩ := appends m hm
    exact Bool.false_ne_true
  have all : { p with missingResp := p.cleared rsp }.toAbort
      (p.workflow.getLockSet p.clusterEvent).toList =
        (p.workflow.getLockSet p.clusterEvent).toList := by
    refine eventsToAbort_eq_self (fun e he ↦ ?_) fun e he e' he' ↦
      led.unnamed e (Std.ExtTreeSet.mem_toList.mp he) e' (Std.ExtTreeSet.mem_toList.mp he')
    refine decide_eq_false fun filed ↦ led.unfiled e (Std.ExtTreeSet.mem_toList.mp he) ?_
    obtain ⟨req, hreq⟩ := Option.isSome_iff_exists.mp
      (Std.ExtTreeMap.mem_iff_isSome_getElem?.mp filed)
    exact Std.ExtTreeMap.mem_iff_isSome_getElem?.mpr
      (Option.isSome_of_mem ((Peer.getElem?_cleared e req).mp hreq).1)
  have once : (p.workflow.getLockSet p.clusterEvent).toList.countP
      (fun e ↦ p.peerToEventMap[p.namedLeader e]? == some x) =
        (p.workflow.getLockSet p.clusterEvent).toList.count x := by
    refine List.countP_congr fun e he ↦ ?_
    rw [led.own e (Std.ExtTreeSet.mem_toList.mp he)]
    simp
  rw [List.countP_append, others, Nat.zero_add, List.countP_map]
  unfold Peer.recalls Peer.aborts
  rw [all, List.countP_map]
  refine once.trans (List.count_eq_one_of_mem ?_ (Std.ExtTreeSet.mem_toList.mpr hx))
  refine Std.ExtTreeSet.distinct_toList.imp fun distinct same ↦ ?_
  exact distinct (same ▸ Std.ReflCmp.compare_self)

private theorem tag_of_mem_recalls {req : CommandReq} (h : req ∈ p.recalls o rsp) :
    req.tag = ⟨o.junkEntry.tag.uid, .abort⟩ := by
  obtain ⟨event, -, rfl⟩ := List.mem_map.mp h
  rfl

/-- A complete abort is one whose entry is not to be committed and for which the unset entry happens
to have the identifier of the response. Where the lock set's leaders are known, that and the absence
of an outstanding LOCK are all it takes. `src/enclave/enclave.cpp:308–349, 605–622`. -/
theorem abort_complete_iff (handles : p.Handles valid rsp) (type : rsp.tag.type = .abort)
    (starts : p.startsAbort rsp.source = true) :
    ((∃ t, recvCommandRsp o valid rsp ⟨p, [], [], []⟩ = .ok (⟨⟩, t) ∧
      p.AbortsCompletely rsp.tag.uid t) →
        (p.clusterSize = 1 → p.log.length ≤ p.commitIndex) ∧ o.junkEntry.tag.uid = rsp.tag.uid) ∧
    (p.LedLockSet →
      ((∃ t, recvCommandRsp o valid rsp ⟨p, [], [], []⟩ = .ok (⟨⟩, t) ∧
        p.AbortsCompletely rsp.tag.uid t) ↔
      (p.clusterSize = 1 → p.log.length ≤ p.commitIndex) ∧ o.junkEntry.tag.uid = rsp.tag.uid ∧
        ∀ x ∈ p.workflow.getLockSet p.clusterEvent, ¬p.LockPending x)) := by
  obtain ⟨effect, result⟩ := recvCommandRsp_of_starts (o := o) handles type starts
  have needs : (∃ t, recvCommandRsp o valid rsp ⟨p, [], [], []⟩ = .ok (⟨⟩, t) ∧
      p.AbortsCompletely rsp.tag.uid t) →
        (p.clusterSize = 1 → p.log.length ≤ p.commitIndex) ∧
          o.junkEntry.tag.uid = rsp.tag.uid := by
    rintro ⟨t, ht, complete⟩
    have same := List.append_cancel_left ((effect _ t ht).1.symm.trans complete.entry)
    exact ⟨result.mp ⟨_, t, ht⟩, congrArg (fun e ↦ e.tag.uid) (List.singleton_inj.mp same)⟩
  refine ⟨needs, fun led ↦ ⟨fun complete ↦ ?_, fun ⟨plain, unset, free⟩ ↦ ?_⟩⟩
  · obtain ⟨plain, unset⟩ := needs complete
    refine ⟨plain, unset, fun x hx pending ↦ ?_⟩
    obtain ⟨t, ht, complete⟩ := complete
    obtain ⟨-, -, ms, hms, hsent⟩ := effect _ t ht
    have none := (complete.waits x hx pending).1
    rw [hsent, countP_abortsTo led hms hx] at none
    exact absurd none Nat.one_ne_zero
  · obtain ⟨_, t, ht⟩ := result.mpr plain
    obtain ⟨hlog, hmissing, ms, hms, hsent⟩ := effect _ t ht
    have sentRecall {req : CommandReq} (h : .commandReq req ∈ t.sent) : req ∈ p.recalls o rsp := by
      rw [hsent, List.mem_append] at h
      rcases h with h | h
      · exact nomatch hms _ h
      · obtain ⟨_, hreq, he⟩ := List.mem_map.mp h
        obtain rfl := Message.commandReq.inj he
        exact hreq
    have distinct : Distinct (p.recalls o rsp) := Peer.distinct_aborts _ _ _
    refine ⟨t, ht, ?_, fun req hreq _ ↦ ?_, fun x hx pending ↦ absurd pending (free x hx),
      fun x hx _ ↦ ⟨?_, fun req hreq _ ↦ ?_⟩⟩
    · rw [hlog, unset]
    · rw [tag_of_mem_recalls (sentRecall hreq)]
      exact unset
    · rw [hsent]
      exact countP_abortsTo led hms hx
    · rw [hmissing, getElem?_fileAll distinct]
      exact Or.inl ⟨sentRecall hreq, rfl⟩

end

/-- A leader of a cluster of two whose locked attempt another event's peer has answered, with that
peer entered as if it were an event. -/
def recallingPeer : Peer where
  __ := Peer.zero
  id := ⟨0, 11⟩
  clusterEvent := ⟨0, 1⟩
  workflow := { DcrWorkflow.empty with excludesTo := (∅ : Relation).insert ⟨0, 1⟩ [⟨0, 2⟩] }
  peerToEventMap := (∅ : UidMap Uid).insert ⟨0, 21⟩ ⟨0, 2⟩
  leaderMap := ((∅ : UidMap Uid).insert ⟨0, 2⟩ ⟨0, 21⟩).insert ⟨0, 21⟩ ⟨0, 1⟩
  role := .leader
  log := [getEmptyEntry, ⟨1, 0, ⟨0, 1⟩, ⟨0, 11⟩, ⟨⟨0, 101⟩, .lock⟩⟩]
  commitIndex := 1
  clusterSize := 2
  lockedEntryIndex := 1

/-- The same leader with its LOCK request to that peer outstanding. -/
def waitingPeer : Peer where
  __ := recallingPeer
  missingResp := (∅ : UidMap CommandReq).insert ⟨0, 21⟩
    ⟨⟨0, 21⟩, ⟨0, 11⟩, ⟨⟨0, 101⟩, .lock⟩, ⟨0, 1⟩⟩

/-- The peer's ABORT response for the attempt. -/
def recallRsp : CommandRsp := ⟨⟨0, 11⟩, ⟨0, 21⟩, ⟨⟨0, 101⟩, .abort⟩, true, emptyUid⟩

/-- Both know the leader of the one event they lock. -/
theorem ledLockSet_recallingPeer : recallingPeer.LedLockSet := by
  have only : recallingPeer.workflow.getLockSet recallingPeer.clusterEvent =
      (∅ : UidSet).insert ⟨0, 2⟩ := by decide +kernel
  constructor
  · rw [only]
    intro x hx
    obtain rfl : (⟨0, 2⟩ : Uid) = x := by simpa using hx
    decide +kernel
  · exact fun _ _ ↦ Std.ExtTreeMap.not_mem_empty
  · rw [only]
    intro x hx y hy
    obtain rfl : (⟨0, 2⟩ : Uid) = x := by simpa using hx
    obtain rfl : (⟨0, 2⟩ : Uid) = y := by simpa using hy
    decide +kernel

/-- With its LOCK entry in the unset one, the leader asks the other event's peer for the abort. -/
theorem recallingPeer_abort_complete : ∃ t,
    recvCommandRsp (reading ⟨1, 0, ⟨0, 1⟩, ⟨0, 11⟩, ⟨⟨0, 101⟩, .lock⟩⟩) true recallRsp
      ⟨recallingPeer, [], [], []⟩ = .ok (⟨⟩, t) ∧
    recallingPeer.AbortsCompletely ⟨0, 101⟩ t := by
  refine ((abort_complete_iff (by decide) rfl (by decide +kernel)).2 ledLockSet_recallingPeer).mpr
    ⟨by decide, rfl, ?_⟩
  rintro x - ⟨k, req, -, none, -⟩
  exact nomatch none

/-- With the LOCK outstanding it does so too, and the ABORT request takes the place of the LOCK. -/
theorem not_abort_complete : ¬ ∀ (o : Oracle) (p : Peer) (valid : Bool) (rsp : CommandRsp),
    p.Handles valid rsp → rsp.tag.type = .abort → p.startsAbort rsp.source = true →
    ∀ t, recvCommandRsp o valid rsp ⟨p, [], [], []⟩ = .ok (⟨⟩, t) →
      p.AbortsCompletely rsp.tag.uid t := by
  intro claim
  have handles : waitingPeer.Handles true recallRsp := by decide
  have starts : waitingPeer.startsAbort recallRsp.source = true := by decide +kernel
  have attempt := recvCommandRsp_of_starts
    (o := reading ⟨1, 0, ⟨0, 1⟩, ⟨0, 11⟩, ⟨⟨0, 101⟩, .lock⟩⟩) handles rfl starts
  obtain ⟨_, t, ht⟩ := attempt.2.mpr (by decide)
  obtain ⟨-, -, ms, hms, hsent⟩ := attempt.1 _ t ht
  have complete := claim _ _ _ _ handles rfl starts t ht
  have pending : waitingPeer.LockPending ⟨0, 2⟩ :=
    ⟨⟨0, 21⟩, ⟨⟨0, 21⟩, ⟨0, 11⟩, ⟨⟨0, 101⟩, .lock⟩, ⟨0, 1⟩⟩, by decide +kernel, by decide +kernel,
      rfl⟩
  have none := (complete.waits ⟨0, 2⟩ (by decide +kernel) pending).1
  have led : waitingPeer.LedLockSet := by
    refine ⟨ledLockSet_recallingPeer.own, fun x hx ↦ ?_, ledLockSet_recallingPeer.unnamed⟩
    have only : waitingPeer.workflow.getLockSet waitingPeer.clusterEvent =
        (∅ : UidSet).insert ⟨0, 2⟩ := by decide +kernel
    rw [only] at hx
    obtain rfl : (⟨0, 2⟩ : Uid) = x := by simpa using hx
    decide +kernel
  rw [hsent, countP_abortsTo led hms (by decide +kernel)] at none
  exact absurd none Nat.one_ne_zero

end TrustedDcr.Enclave
