import TrustedDcr.Enclave.Frame
import TrustedDcr.System.Run

/-!
# The peers a run starts with

`configure_enclave` reads a position of the log only when it makes the peer of a
one-peer cluster the leader, and that position is there.
-/

namespace TrustedDcr.System
open TrustedDcr.Msg TrustedDcr.Dcr TrustedDcr.Enclave TrustedDcr.Theory

private theorem runs_modifySelf {f : Peer → Peer} {Q : PUnit → EnclaveState → Prop}
    {s : EnclaveState}
    (h : Q ⟨⟩ { s with self := f s.self }) : Runs (modifySelf f) Q s := Runs.modify h

/-- What follows an assignment need run on the peer it makes only. -/
theorem runs_bind_modifySelf {α : Type} {f : Peer → Peer} {g : PUnit → Ecall α}
    {Q : α → EnclaveState → Prop} {s : EnclaveState}
    (h : ∀ t, t = { s with self := f s.self } → Runs (g ⟨⟩) Q t) : Runs (modifySelf f >>= g) Q s :=
  (Runs.modify (Q := fun _ t ↦ t = { s with self := f s.self }) rfl).bind fun _ t ht ↦ h t ht

/-- What follows on reading `self` need run on the peer only. -/
theorem runs_bind_getSelf {α : Type} {g : Peer → Ecall α} {Q : α → EnclaveState → Prop}
    {s : EnclaveState} (h : Runs (g s.self) Q s) : Runs (getSelf >>= g) Q s := h

/-- A peer with the empty log alone has no unresolved lock. -/
theorem hasUnresolvedLock_of_root {p : Peer} (log : p.log = [getEmptyEntry])
    (commit : p.commitIndex = 0) (checkpoint : p.lastCheckpoint = 0) :
    p.hasUnresolvedLock = .ok none := by
  unfold Peer.hasUnresolvedLock Peer.entryAt
  rw [log, commit, checkpoint]
  rfl

/-- What stays of a peer that becomes a leader. -/
structure Leads (p q : Peer) : Prop where
  node : q.node = { p.node with role := .leader }
  clusterEvent : q.clusterEvent = p.clusterEvent
  lockedEvents : q.lockedEvents = p.lockedEvents
  workflow : q.workflow = p.workflow
  peerToEventMap : q.peerToEventMap = p.peerToEventMap

/-- With the empty log alone, becoming the leader succeeds. -/
theorem runs_becomeLeader (o : Oracle) (s : EnclaveState) (log : s.self.log = [getEmptyEntry])
    (commit : s.self.commitIndex = 0) :
    Runs (becomeLeader o) (fun _ t ↦ Leads s.self t.self) s := by
  unfold becomeLeader
  refine runs_bind_modifySelf fun t ht ↦ runs_bind_getSelf ?_
  have hcp : t.self.lastCheckpoint = 0 := by
    rw [ht]
    unfold Peer.findLatestCheckpoint
    rw [log]
    rfl
  have hno := hasUnresolvedLock_of_root (ht ▸ log) (ht ▸ commit) hcp
  refine (Runs.lift (Q := fun a u ↦ a = none ∧ u = t) hno ⟨rfl, rfl⟩).bind ?_
  rintro _ _ ⟨rfl, rfl⟩
  refine runs_bind_modifySelf fun u hu ↦ runs_bind_modifySelf fun v hv ↦ runs_modifySelf ?_
  rw [if_pos (by rw [hv]), hv, hu, ht]
  exact ⟨rfl, rfl, rfl, rfl, rfl⟩

/-- Looking up a leader changes the table of leaders at most. -/
theorem runs_leaderMapAt (event : Uid) (s : EnclaveState) :
    Runs (leaderMapAt event)
      (fun _ t ↦ ∃ m, t = { s with self := { s.self with leaderMap := m } }) s := by
  unfold leaderMapAt
  refine runs_bind_getSelf ?_
  split
  · exact Runs.pure ⟨s.self.leaderMap, rfl⟩
  · refine runs_bind_modifySelf fun t ht ↦ Runs.pure ?_
    exact ⟨_, ht⟩

/-- A peer right after its configuration. -/
structure Fresh (cfg : Config) (id : Uid) (p : Peer) : Prop where
  node : p.node =
    { id := id
      clusterMembers := cfg.members (cfg.clusterOf id)
      clusterSize := (cfg.members (cfg.clusterOf id)).length
      term := 0
      role := if (cfg.members (cfg.clusterOf id)).length = 1 then .leader else .follower
      log := [getEmptyEntry]
      commitIndex := 0
      endorsement := emptyUid
      electionVotes := 1 }
  clusterEvent : p.clusterEvent = cfg.clusterOf id
  lockedEvents : p.lockedEvents = ∅
  workflow : p.workflow = makeWorkflow cfg.workflow
  peerToEventMap : p.peerToEventMap = cfg.peerToEventMap

/-- Configuration always succeeds. -/
theorem runs_configureEnclave (cfg : Config) (id : Uid) :
    Runs (configureEnclave silent id cfg.workflow cfg.peerMap) (fun _ t ↦ Fresh cfg id t.self)
      ⟨Peer.zero, [], [], []⟩ := by
  unfold configureEnclave
  refine runs_bind_modifySelf fun t ht ↦ runs_bind_getSelf ?_
  refine (runs_leaderMapAt _ t).bind ?_
  rintro leader u ⟨m, hu⟩
  refine runs_bind_modifySelf fun v hv ↦ ?_
  have hmembers : t.self.clusterSize = (cfg.members (cfg.clusterOf id)).length := by rw [ht]; rfl
  rw [hmembers]
  split
  · next hone =>
    have log : v.self.log = [getEmptyEntry] := by
      rw [hv, hu, ht]
      rfl
    have commit : v.self.commitIndex = 0 := by
      rw [hv, hu, ht]
      rfl
    obtain ⟨a, w, hrun, h⟩ := runs_becomeLeader silent v log commit
    refine ⟨a, w, hrun, ?_⟩
    constructor
    · rw [h.node, if_pos hone, hv, hu, ht]
      rfl
    · rw [h.clusterEvent, hv, hu, ht]
      rfl
    · rw [h.lockedEvents, hv, hu, ht]
      rfl
    · rw [h.workflow, hv, hu, ht]
      rfl
    · rw [h.peerToEventMap, hv, hu, ht]
      rfl
  · next hone =>
    refine Runs.pure ?_
    rw [hv, hu, ht]
    refine ⟨?_, rfl, rfl, rfl, rfl⟩
    rw [if_neg hone]
    rfl

/-- The peers a run starts with. -/
theorem fresh_configured (cfg : Config) (id : Uid) : Fresh cfg id (configured cfg id) := by
  obtain ⟨a, t, hrun, h⟩ := runs_configureEnclave cfg id
  unfold configured
  rw [hrun]
  exact h

end TrustedDcr.System
