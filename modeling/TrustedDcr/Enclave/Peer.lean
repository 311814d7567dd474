import TrustedDcr.Dcr.Workflow
import TrustedDcr.Msg.Types
import Mathlib.Data.List.Sort

/-!
# The state of a peer

`class peer` of `src/enclave/raft.h` with its methods from `src/enclave/raft.cpp`,
and the map helpers of `src/enclave/enclave_helpers.h`. A read of `log[i]` outside
the log has no defined result and ends the call with a fault. The history maps
filled for global state collection are written but never read, and are left out.
-/

namespace TrustedDcr.Enclave
open TrustedDcr.Msg TrustedDcr.Dcr

/-- `role_t`. `src/enclave/raft.h:11`. -/
inductive Role where
  | follower
  | candidate
  | leader
  deriving DecidableEq, Repr

/-- Reasons why a call has no defined result. -/
inductive Fault where
  | outOfRange
  deriving DecidableEq, Repr

/-- `delta_heartbeat`. `src/enclave/raft.h:13`. -/
def deltaHeartbeat : UInt64 := 1000

/-- `delta_min_time`. `src/enclave/raft.h:14`. -/
def deltaMinTime : UInt64 := 2 * deltaHeartbeat

/-- `delta_max_time`. `src/enclave/raft.h:15`. -/
def deltaMaxTime : UInt64 := 4 * deltaHeartbeat

/-- `class peer`. `src/enclave/raft.h:18–58`. -/
structure Peer where
  commitIndex : Nat
  id : Uid
  workflow : DcrWorkflow
  clusterEvent : Uid
  peerToEventMap : UidMap Uid
  leaderMap : UidMap Uid
  missingResp : UidMap CommandReq
  lockedEvents : UidSet
  lastCheckpoint : Nat
  role : Role
  log : List Entry
  term : Nat
  indices : UidMap Nat
  endorsement : Uid
  pollVotes : Nat
  electionVotes : Nat
  leader : Uid
  clusterSize : Nat
  clusterMembers : List Uid
  tMin : UInt64
  t : UInt64
  now : UInt64
  retriedResponses : Bool
  lockedEntryIndex : Int

namespace Peer

/-- The zero-initialised global `self`. `src/enclave/enclave.cpp:8`. -/
def zero : Peer where
  commitIndex := 0
  id := emptyUid
  workflow := DcrWorkflow.empty
  clusterEvent := emptyUid
  peerToEventMap := ∅
  leaderMap := ∅
  missingResp := ∅
  lockedEvents := ∅
  lastCheckpoint := 0
  role := .follower
  log := []
  term := 0
  indices := ∅
  endorsement := emptyUid
  pollVotes := 0
  electionVotes := 0
  leader := emptyUid
  clusterSize := 0
  clusterMembers := []
  tMin := 0
  t := 0
  now := 0
  retriedResponses := false
  lockedEntryIndex := 0

/-- `log[i]`. -/
def entryAt (p : Peer) (i : Nat) : Except Fault Entry :=
  match p.log[i]? with
  | some e => .ok e
  | none => .error .outOfRange

/-- `log[i]` at a signed position; a negative one wraps far outside the log. -/
def entryAtInt (p : Peer) (i : Int) : Except Fault Entry :=
  if i < 0 then .error .outOfRange else p.entryAt i.toNat

/-- `last_entry`. `src/enclave/raft.cpp:27–30`. -/
def lastEntry (p : Peer) : Except Fault Entry :=
  match p.log.getLast? with
  | some e => .ok e
  | none => .error .outOfRange

/-- `update_term`. `src/enclave/raft.cpp:32–39`. -/
def updateTerm (p : Peer) (newTerm : Nat) (newLeader : Uid) : Peer :=
  { p with
    term := newTerm
    endorsement := emptyUid
    pollVotes := 1
    electionVotes := 1
    leader := newLeader
    leaderMap := p.leaderMap.insert p.clusterEvent newLeader }

/-- `term_and_index_exist_in_log`. `src/enclave/raft.cpp:41–46`. -/
def termAndIndexExistInLog (p : Peer) (term index : Nat) : Bool :=
  match p.log[index]? with
  | some e => e.term == term
  | none => false

/-- `exist_in_log`, with the stored index of the first entry carrying the tag.
`src/enclave/raft.cpp:54–62`. -/
def existInLog (p : Peer) (tag : CommandTag) : Option Nat :=
  (p.log.find? fun logged ↦ tagsEqual logged.tag tag).map (·.index)

/-- `remove_elements_after`. `src/enclave/raft.cpp:72–76`. -/
def removeElementsAfter (p : Peer) (index : Nat) : Peer :=
  { p with log := p.log.take (index + 1) }

/-- `largest_majority_index`; without any acknowledgement it reads an empty vector.
`src/enclave/raft.cpp:79–89`. -/
def largestMajorityIndex (p : Peer) : Except Fault Nat :=
  let sorted := (p.indices.toList.map Prod.snd).insertionSort (· ≤ ·)
  match sorted[(sorted.length - 1) / 2]? with
  | some index => .ok index
  | none => .error .outOfRange

/-- `executing_own_event`. `src/enclave/raft.cpp:91–93`. -/
def executingOwnEvent (p : Peer) : Except Fault Bool := do
  let locked ← p.entryAtInt p.lockedEntryIndex
  return uidsEqual locked.event p.clusterEvent

/-- `locks_aquired`. `src/enclave/raft.cpp:95–102`. -/
def locksAquired (p : Peer) : Bool :=
  (p.workflow.getLockSet p.clusterEvent).toList.all fun lock ↦ p.lockedEvents.contains lock

/-- The first listed position that passes the test, as the scanning loops find it. -/
def firstIndex (test : Nat → Except Fault Bool) : List Nat → Except Fault (Option Nat)
  | [] => .ok none
  | i :: is => do
    if ← test i then return some i
    else firstIndex test is

/-- `lock_is_resolved`. `src/enclave/raft.cpp:104–115`. -/
def lockIsResolved (p : Peer) (index : Nat) : Except Fault Bool := do
  let lock ← p.entryAt index
  if lock.tag.type ≠ .lock then return true
  let found ← firstIndex
    (fun i ↦ do
      let e ← p.entryAt i
      return e.tag.type ≠ .lock && uidsEqual lock.event e.event)
    (List.range' (index + 1) (p.commitIndex - index))
  return found.isSome

/-- `has_unresolved_lock`, with the position it finds. `src/enclave/raft.cpp:117–128`. -/
def hasUnresolvedLock (p : Peer) : Except Fault (Option Nat) :=
  firstIndex
    (fun i ↦ do
      let entry ← p.entryAt i
      if entry.tag.type = .lock then
        let resolved ← p.lockIsResolved i
        return !resolved
      else return false)
    (List.range' p.lastCheckpoint (p.commitIndex + 1 - p.lastCheckpoint))

/-- `lock_resolve_is_committed`; the entry it finds is stored in a by-value parameter, so only
the answer reaches the caller. `src/enclave/raft.cpp:135–147`. -/
def lockResolveIsCommitted (p : Peer) (entryId : Nat) : Except Fault Bool := do
  let lock ← p.entryAt entryId
  if lock.tag.type ≠ .lock then return false
  let found ← firstIndex
    (fun i ↦ do
      let e ← p.entryAt i
      return uidsEqual e.event lock.event)
    (List.range' (entryId + 1) (p.commitIndex - entryId))
  return found.isSome

/-- The downward loop of `find_latest_checkpoint` below a position. -/
def latestCheckpointBelow (log : List Entry) : Nat → Nat
  | 0 => 0
  | i + 1 =>
    match log[i]? with
    | some entry => if entry.tag.type = .checkpoint then i else latestCheckpointBelow log i
    | none => latestCheckpointBelow log i

/-- `find_latest_checkpoint`. `src/enclave/raft.cpp:149–156`. -/
def findLatestCheckpoint (p : Peer) : Nat := latestCheckpointBelow p.log p.log.length

/-- `find_other_peer_in_cluster`, given the random number it draws.
`src/enclave/raft.cpp:158–186`. -/
def findOtherPeerInCluster (p : Peer) (oldSource : Uid) (buf : Nat) : Uid :=
  let eventId := p.peerToEventMap.getD oldSource emptyUid
  let clusterPeers := (p.peerToEventMap.toList.filter fun peerToEvent ↦
    uidsEqual peerToEvent.2 eventId && !uidsEqual peerToEvent.1 oldSource &&
      !uidsEqual peerToEvent.1 p.id).map Prod.fst
  clusterPeers.getD (buf % clusterPeers.length) oldSource

end Peer

/-- `create_peer_to_event_map`. `src/enclave/enclave_helpers.h:6–14`. -/
def createPeerToEventMap (peerMap : List (Uid × Uid)) : UidMap Uid :=
  peerMap.foldl (fun m peerEvent ↦ m.insert peerEvent.1 peerEvent.2) ∅

/-- `pick_leaders`: the first peer listed for each event. `src/enclave/enclave_helpers.h:16–24`. -/
def pickLeaders (peerToEventMap : UidMap Uid) : UidMap Uid :=
  peerToEventMap.toList.foldl (fun leaderMap peerEvent ↦
    if peerEvent.2 ∈ leaderMap then leaderMap
    else leaderMap.insert peerEvent.2 peerEvent.1) ∅

/-- `find_cluster_members`. `src/enclave/enclave_helpers.h:26–33`. -/
def findClusterMembers (peerToEventMap : UidMap Uid) (clusterEvent : Uid) : List Uid :=
  (peerToEventMap.toList.filter fun peerEvent ↦ uidsEqual peerEvent.2 clusterEvent).map Prod.fst

end TrustedDcr.Enclave
