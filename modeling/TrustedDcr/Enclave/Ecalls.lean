import TrustedDcr.Enclave.Peer

/-!
# The calls into an enclave

`src/enclave/enclave.cpp`: the helpers, the ten `recv_*` calls, `execute`,
`get_history`, `set_time` and `configure_enclave`. A call threads the peer `self`
and collects the messages it hands to the `send_*` ocalls in order. Whether the
received message's MAC validated is the argument `valid`; a sent message always
carries the MAC that `set_mac_*` computes for it. Random bytes and the contents of
uninitialised variables come from an `Oracle` chosen anew for every call.
-/

namespace TrustedDcr.Enclave
open TrustedDcr.Msg TrustedDcr.Dcr

/-- What one call draws at random or reads uninitialised. -/
structure Oracle where
  /-- The result of `generate_random_uid`, which a call evaluates at most once. -/
  uid : Uid
  /-- The 16 bits `update_timeout` draws, at most once in a call. -/
  timeout : UInt16
  /-- The number `find_other_peer_in_cluster` draws for an entry of `missing_resp`. -/
  pick : Uid → Nat
  /-- `event_leader` when an event has neither a leader nor a peer. -/
  junkLeader : CommandTag → Uid → Uid
  /-- `rsp` of `update_commit_index` in the given round, when no case assigns it. -/
  junkRsp : Nat → CommandRsp
  /-- `entry` of `recv_command_rsp`. -/
  junkEntry : Entry
  /-- `resolve_entry` of `recv_command_rsp`. -/
  junkResolve : Entry

/-- An oracle for a call that consults none: draws of 0, and zeroed variables. -/
def silent : Oracle where
  uid := emptyUid
  timeout := 0
  pick _ := 0
  junkLeader _ _ := emptyUid
  junkRsp _ := ⟨emptyUid, emptyUid, ⟨emptyUid, .lock⟩, false, emptyUid⟩
  junkEntry := getEmptyEntry
  junkResolve := getEmptyEntry

/-- The peer during a call, the messages sent, the histories returned and the identifiers
generated so far in it. -/
structure EnclaveState where
  self : Peer
  sent : List Message
  returned : List (Uid × List Entry)
  drawn : List Uid

/-- A call: it updates the enclave or faults. -/
abbrev Ecall := StateT EnclaveState (Except Fault)

/-- The peer as it stands. -/
def getSelf : Ecall Peer := do return (← get).self

/-- An assignment to fields of `self`. -/
def modifySelf (f : Peer → Peer) : Ecall Unit := modify fun s ↦ { s with self := f s.self }

/-- `mac_and_send_msg`. `src/enclave/enclave.cpp:87–113`. -/
def macAndSendMsg (msg : Message) : Ecall Unit := modify fun s ↦ { s with sent := s.sent ++ [msg] }

/-- `mac_and_broadcast_msgs`. `src/enclave/enclave.cpp:59–85`. -/
def macAndBroadcastMsgs (msgs : List Message) : Ecall Unit :=
  modify fun s ↦ { s with sent := s.sent ++ msgs }

/-- `generate_random_uid`. `src/enclave/msg_utils.cpp:17–29`. -/
def generateRandomUid (o : Oracle) : Ecall Uid := do
  modify fun s ↦ { s with drawn := s.drawn ++ [o.uid] }
  return o.uid

/-- `self.leader_map[event]`. -/
def leaderMapAt (event : Uid) : Ecall Uid := do
  let self ← getSelf
  match self.leaderMap[event]? with
  | some leader => return leader
  | none =>
    modifySelf fun p ↦ { p with leaderMap := p.leaderMap.insert event emptyUid }
    return emptyUid

/-- `self.peer_to_event_map[peer]`. -/
def peerToEventMapAt (peer : Uid) : Ecall Uid := do
  let self ← getSelf
  match self.peerToEventMap[peer]? with
  | some event => return event
  | none =>
    modifySelf fun p ↦ { p with peerToEventMap := p.peerToEventMap.insert peer emptyUid }
    return emptyUid

/-- `verify_mac_and_own_term`. `src/enclave/enclave.cpp:11–36`. -/
def verifyMacAndOwnTerm (valid : Bool) (target source : Uid) (term : Nat) : Ecall Bool := do
  if !valid then return false
  else
    let self ← getSelf
    if !uidsEqual target self.id then return false
    else
      if term > self.term then
        modifySelf fun p ↦ { p.updateTerm term source with lockedEntryIndex := -1, role := .follower }
      return true

/-- `verify_msg_term`, given the refusal it sends. `src/enclave/enclave.cpp:38–56`. -/
def verifyMsgTerm (term : Nat) (rsp : Message) : Ecall Bool := do
  let self ← getSelf
  if term < self.term then
    macAndSendMsg rsp
    return false
  else return true

/-- `update_timeout`. `src/enclave/enclave.cpp:115–129`. -/
def updateTimeout (o : Oracle) : Ecall Unit :=
  modifySelf fun p ↦
    if p.role = .leader then { p with t := p.now + deltaHeartbeat }
    else { p with
      tMin := p.now + deltaMinTime
      t := p.now + deltaMinTime + (o.timeout.toUInt64 % deltaMaxTime) }

/-- `become_leader`. `src/enclave/enclave.cpp:131–143`. -/
def becomeLeader (o : Oracle) : Ecall Unit := do
  modifySelf fun p ↦ { p with lastCheckpoint := p.findLatestCheckpoint }
  let self ← getSelf
  match ← self.hasUnresolvedLock with
  | some index => modifySelf fun p ↦ { p with lockedEntryIndex := index }
  | none => modifySelf fun p ↦ { p with lockedEntryIndex := -1 }
  modifySelf fun p ↦
    { p with role := .leader, leaderMap := p.leaderMap.insert p.clusterEvent p.id }
  updateTimeout o

/-- `min_time_exceeded`. `src/enclave/enclave.cpp:144–146`. -/
def minTimeExceeded (p : Peer) : Bool := p.now > p.tMin

/-- The members of the cluster other than the peer itself, as the broadcast loops visit them. -/
def otherMembers (p : Peer) : List Uid := p.clusterMembers.filter fun m ↦ !uidsEqual m p.id

/-- `start_election`; the term is a 32-bit counter. `src/enclave/enclave.cpp:148–170`. -/
def startElection (o : Oracle) : Ecall Unit := do
  updateTimeout o
  modifySelf fun p ↦ p.updateTerm ((p.term + 1) % 2 ^ 32) p.id
  modifySelf fun p ↦ { p with role := .candidate }
  let self ← getSelf
  let last ← self.lastEntry
  macAndBroadcastMsgs <| (otherMembers self).map fun member ↦ .electionReq
    { target := member, source := self.id, term := self.term, lastTerm := last.term,
      lastIndex := last.index }

/-- The leader named for an event, or else the last of its peers in map order.
`src/enclave/enclave.cpp:246–256`. -/
def eventLeader (o : Oracle) (tag : CommandTag) (eventId : Uid) : Ecall Uid := do
  let self ← getSelf
  match self.leaderMap[eventId]? with
  | some leader => return leader
  | none =>
    match ((self.peerToEventMap.toList.filter fun eventPeer ↦
        uidsEqual eventPeer.2 eventId).map Prod.fst).getLast? with
    | some peer =>
      modifySelf fun p ↦ { p with leaderMap := p.leaderMap.insert eventId peer }
      return peer
    | none => return o.junkLeader tag eventId

/-- The request for one event, filed as missing a response. -/
def fileCommand (o : Oracle) (tag : CommandTag) (eventId : Uid) : Ecall Message := do
  let leader ← eventLeader o tag eventId
  let self ← getSelf
  let req : CommandReq :=
    { target := leader, source := self.id, tag := tag, event := self.clusterEvent }
  modifySelf fun p ↦ { p with missingResp := p.missingResp.insert req.target req }
  return .commandReq req

/-- The common loop of `send_lock_requests` and `send_execution`. -/
def sendCommands (o : Oracle) (tag : CommandTag) (events : List Uid) : Ecall Unit := do
  let reqs ← events.mapM (fileCommand o tag)
  macAndBroadcastMsgs reqs

/-- `send_lock_requests`. `src/enclave/enclave.cpp:240–271`. -/
def sendLockRequests (o : Oracle) (tagId : Uid) : Ecall Unit := do
  let self ← getSelf
  sendCommands o ⟨tagId, .lock⟩ (self.workflow.getLockSet self.clusterEvent).toList

/-- `send_execution`. `src/enclave/enclave.cpp:273–306`. -/
def sendExecution (o : Oracle) (tagId : Uid) : Ecall Unit := do
  let self ← getSelf
  sendCommands o ⟨tagId, .exec⟩ (self.workflow.getInformSet self.clusterEvent).toList

/-- The response to a newly committed LOCK or EXEC entry. `src/enclave/enclave.cpp:385–403`. -/
def commitRsp (self : Uid) (entry : Entry) : CommandRsp :=
  { target := entry.source, source := self, tag := entry.tag, success := true, leader := emptyUid }

/-- The leader's loop over newly committed entries, with the responses it collects.
`src/enclave/enclave.cpp:369–412`. -/
def commitEntries (o : Oracle) : Nat → List Entry → Ecall (List CommandRsp)
  | _, [] => return []
  | round, entry :: entries => do
    if entry.tag.type = .checkpoint then
      modifySelf fun p ↦ { p with lastCheckpoint := entry.index }
      commitEntries o (round + 1) entries
    else
      if entry.tag.type = .exec then
        modifySelf fun p ↦ { p with workflow := p.workflow.setEventExecuted entry.event }
      let self ← getSelf
      if uidsEqual entry.event self.clusterEvent && entry.tag.type == .lock then
        sendLockRequests o entry.tag.uid
        commitEntries o (round + 1) entries
      else
        let rsp ←
          if entry.tag.type = .abort then do
            let locked ← self.entryAtInt self.lockedEntryIndex
            if uidsEqual entry.event locked.event then
              modifySelf fun p ↦ { p with lockedEntryIndex := -1 }
            -- no case assigns the response to an ABORT, and it is sent all the same
            pure (o.junkRsp round)
          else pure (commitRsp self.id entry)
        let rsps ← commitEntries o (round + 1) entries
        return rsp :: rsps

/-- The entries at positions `commit_index + 1` to `new_index`. -/
def newlyCommitted (p : Peer) (newIndex : Nat) : Except Fault (List Entry) :=
  (List.range' (p.commitIndex + 1) (newIndex - p.commitIndex)).mapM p.entryAt

/-- `update_commit_index`. `src/enclave/enclave.cpp:351–417`. -/
def updateCommitIndex (o : Oracle) (newIndex : Nat) : Ecall Unit := do
  let self ← getSelf
  let committed ← newlyCommitted self newIndex
  if self.role ≠ .leader then
    modifySelf fun p ↦ { p with
      workflow := committed.foldl (fun w entry ↦
        if entry.tag.type = .exec then w.setEventExecuted entry.event else w) p.workflow }
    modifySelf fun p ↦ { p with commitIndex := newIndex }
  else
    let responses ← commitEntries o 0 committed
    macAndBroadcastMsgs (responses.map .commandRsp)
    modifySelf fun p ↦ { p with commitIndex := newIndex }

/-- The loop of `append_to_log` that sends the last entry to the other members.
`src/enclave/enclave.cpp:181–196`. -/
def broadcastLast : Ecall Unit := do
  let self ← getSelf
  if otherMembers self ≠ [] then
    let prev ← self.entryAtInt (self.log.length - 2)
    let last ← self.lastEntry
    macAndBroadcastMsgs <| (otherMembers self).map fun member ↦ .appendReq
      { target := member, source := self.id, term := self.term, prevTerm := prev.term,
        prevIndex := prev.index, commitIndex := self.commitIndex, entries := [last] }

/-- `append_to_log`. `src/enclave/enclave.cpp:172–200`. -/
def appendToLog (o : Oracle) (entry : Entry) : Ecall Unit := do
  modifySelf fun p ↦ { p with log := p.log ++ [entry] }
  let self ← getSelf
  if self.clusterSize = 1 then updateCommitIndex o (self.log.length - 1)
  else
    broadcastLast
    updateTimeout o

/-- The body of the retry loop for one outstanding request. `src/enclave/enclave.cpp:206–215`. -/
def retryRequest (o : Oracle) (key : Uid) (req : CommandReq) : Ecall Unit := do
  let event ← peerToEventMapAt req.target
  let self ← getSelf
  let target := self.leaderMap.getD event req.target
  let target :=
    if self.retriedResponses then self.findOtherPeerInCluster target (o.pick key) else target
  macAndSendMsg (.commandReq { req with target := target })

/-- `retry_requests`. `src/enclave/enclave.cpp:202–238`. -/
def retryRequests (o : Oracle) : Ecall Unit := do
  let self ← getSelf
  self.missingResp.toList.forM fun r ↦ retryRequest o r.1 r.2
  -- another peer was tried exactly when the flag was set and there was something to retry
  modifySelf fun p ↦ { p with
    retriedResponses := decide (0 < p.missingResp.size) && !p.retriedResponses }
  let self ← getSelf
  if self.missingResp.size = 0 then
    if (← self.hasUnresolvedLock).isNone then
      if self.lastCheckpoint < self.commitIndex then
        let uid ← generateRandomUid o
        let checkpoint : Entry :=
          { index := self.log.length, term := self.term, event := self.clusterEvent,
            source := self.id, tag := ⟨uid, .checkpoint⟩ }
        appendToLog o checkpoint
        modifySelf fun p ↦ { p with lastCheckpoint := checkpoint.index }

/-- The ABORT request for one cluster of the lock set, unless its map holds a request under the
event's own id. `src/enclave/enclave.cpp:328–346`. -/
def abortCommand (tagId : Uid) (eventId : Uid) : Ecall (List Message) := do
  let leader ← leaderMapAt eventId
  let self ← getSelf
  let req : CommandReq :=
    { target := leader, source := self.id, tag := ⟨tagId, .abort⟩, event := self.clusterEvent }
  if eventId ∈ self.missingResp then return []
  else
    modifySelf fun p ↦ { p with missingResp := p.missingResp.insert leader req }
    return [.commandReq req]

/-- `abort_execution`. `src/enclave/enclave.cpp:308–349`. -/
def abortExecution (o : Oracle) (tagId : Uid) : Ecall Unit := do
  modifySelf fun p ↦ { p with lockedEvents := ∅, lockedEntryIndex := -1 }
  let self ← getSelf
  appendToLog o
    { index := self.log.length, term := self.term, event := self.clusterEvent, source := self.id,
      tag := ⟨tagId, .abort⟩ }
  let self ← getSelf
  let reqs ← (self.workflow.getLockSet self.clusterEvent).toList.mapM (abortCommand tagId)
  macAndBroadcastMsgs reqs.flatten

/-- `heartbeat`. `src/enclave/enclave.cpp:419–441`. -/
def heartbeat : Ecall Unit := do
  let self ← getSelf
  if otherMembers self ≠ [] then
    let last ← self.lastEntry
    macAndBroadcastMsgs <| (otherMembers self).map fun member ↦ .appendReq
      { target := member, source := self.id, term := self.term, prevTerm := last.term,
        prevIndex := last.index, commitIndex := self.commitIndex, entries := [] }

/-- `start_poll`. `src/enclave/enclave.cpp:443–459`. -/
def startPoll : Ecall Unit := do
  let self ← getSelf
  if otherMembers self ≠ [] then
    let last ← self.lastEntry
    macAndBroadcastMsgs <| (otherMembers self).map fun member ↦ .pollReq
      { target := member, source := self.id, term := self.term, lastTerm := last.term,
        lastIndex := last.index }

/-! ### The calls -/

/-- The answer to a command request. -/
def answerCommand (self : Peer) (req : CommandReq) (tag : CommandTag) (success : Bool)
    (leader : Uid) : Message :=
  .commandRsp
    { target := req.source, source := self.id, tag := tag, success := success, leader := leader }

/-- The entry for a command request. `src/enclave/enclave.cpp:554–567`. -/
def appendCommand (o : Oracle) (req : CommandReq) (tag : CommandTag) : Ecall Unit := do
  let self ← getSelf
  appendToLog o
    { index := self.log.length, term := self.term, event := req.event, source := req.source,
      tag := tag }

/-- The admission of a LOCK request that is no duplicate. `src/enclave/enclave.cpp:509–549`. -/
def admitLock (o : Oracle) (req : CommandReq) : Ecall Unit := do
  let self ← getSelf
  if (← self.hasUnresolvedLock).isSome then
    macAndSendMsg (answerCommand self req ⟨req.tag.uid, .lock⟩ false emptyUid)
  else if uidsEqual req.event self.clusterEvent then
    let (enabled, workflow) := self.workflow.isEventEnabled self.clusterEvent
    modifySelf fun p ↦ { p with workflow := workflow }
    if !enabled then macAndSendMsg (answerCommand self req ⟨req.tag.uid, .lock⟩ false emptyUid)
    -- with nothing to lock the execution is immediate
    else if (workflow.getLockSet req.event).size = 0 then appendCommand o req ⟨req.tag.uid, .exec⟩
    else appendCommand o req req.tag
  else appendCommand o req req.tag

/-- `recv_command_req`. `src/enclave/enclave.cpp:463–568`. -/
def recvCommandReq (o : Oracle) (valid : Bool) (req : CommandReq) : Ecall Unit := do
  let self ← getSelf
  if !valid then return
  else if !uidsEqual req.target self.id then return
  else if self.role ≠ .leader then
    macAndSendMsg (answerCommand self req req.tag false self.leader)
  else
    match self.existInLog req.tag with
    | some indexOfDuplicate =>
      if indexOfDuplicate ≤ self.commitIndex then
        macAndSendMsg (answerCommand self req req.tag true self.id)
    | none => if req.tag.type = .lock then admitLock o req else appendCommand o req req.tag

/-- A response from a peer that is not the leader of its cluster.
`src/enclave/enclave.cpp:586–597`. -/
def recvRedirect (rsp : CommandRsp) : Ecall Unit := do
  let event ← peerToEventMapAt rsp.source
  modifySelf fun p ↦ { p with leaderMap := p.leaderMap.insert event rsp.leader }
  let self ← getSelf
  match self.missingResp[rsp.source]? with
  | some req =>
    modifySelf fun p ↦
      { p with missingResp := (p.missingResp.erase rsp.source).insert rsp.leader req }
  | none => return

/-- The request answered is missing its response no longer. `src/enclave/enclave.cpp:599–603`. -/
def clearMissingResp (rsp : CommandRsp) : Ecall Unit := do
  let self ← getSelf
  match self.missingResp[rsp.source]? with
  | some req =>
    if tagsEqual req.tag rsp.tag then
      modifySelf fun p ↦ { p with missingResp := p.missingResp.erase rsp.source }
  | none => return

/-- The ABORT case of `recv_command_rsp`. `src/enclave/enclave.cpp:608–622`. -/
def recvAbortRsp (o : Oracle) (rsp : CommandRsp) : Ecall Unit := do
  let rspEvent ← leaderMapAt rsp.source
  let self ← getSelf
  let locked ← self.entryAtInt self.lockedEntryIndex
  if !uidsEqual locked.event rspEvent then return
  else if ← self.executingOwnEvent then abortExecution o o.junkEntry.tag.uid
  else if self.lockedEntryIndex = -1 then appendToLog o o.junkEntry

/-- The answer to the response to a LOCK that is resolved already.
`src/enclave/enclave.cpp:632–644`. -/
def answerResolved (o : Oracle) (rsp : CommandRsp) (lockIndex : Nat) : Ecall Unit := do
  let self ← getSelf
  if ← self.lockResolveIsCommitted lockIndex then
    -- the committed entry was not handed back: the request carries an unset one
    let req : CommandReq :=
      { target := rsp.source, source := self.id, tag := o.junkResolve.tag,
        event := o.junkResolve.event }
    modifySelf fun p ↦ { p with missingResp := p.missingResp.insert rsp.source req }
    macAndSendMsg (.commandReq req)

/-- The response to an unresolved LOCK. `src/enclave/enclave.cpp:647–664`. -/
def countLock (o : Oracle) (rsp : CommandRsp) : Ecall Unit := do
  let event ← peerToEventMapAt rsp.source
  modifySelf fun p ↦ { p with lockedEvents := p.lockedEvents.insert event }
  let self ← getSelf
  if self.locksAquired then
    let entry : Entry :=
      { index := self.log.length, term := self.term, event := self.clusterEvent,
        source := self.id, tag := ⟨rsp.tag.uid, .exec⟩ }
    sendExecution o rsp.tag.uid
    appendToLog o entry
    modifySelf fun p ↦ { p with lockedEvents := ∅ }

/-- The LOCK case of `recv_command_rsp`. `src/enclave/enclave.cpp:627–665`. -/
def recvLockRsp (o : Oracle) (rsp : CommandRsp) : Ecall Unit := do
  let self ← getSelf
  match self.existInLog rsp.tag with
  | none => return
  | some lockIndex =>
    if ← self.lockIsResolved lockIndex then answerResolved o rsp lockIndex
    else countLock o rsp

/-- `recv_command_rsp`. `src/enclave/enclave.cpp:570–668`. -/
def recvCommandRsp (o : Oracle) (valid : Bool) (rsp : CommandRsp) : Ecall Unit := do
  let self ← getSelf
  if !valid then return
  else if !uidsEqual rsp.target self.id then return
  else if self.role ≠ .leader then return
  else if !rsp.success && !uidsEqual rsp.leader emptyUid then recvRedirect rsp
  else
    clearMissingResp rsp
    match rsp.tag.type with
    | .abort => recvAbortRsp o rsp
    | .exec => modifySelf fun p ↦ { p with missingResp := p.missingResp.erase rsp.source }
    | .lock => recvLockRsp o rsp
    | .checkpoint => return

/-- A follower takes over the entries of a request. `src/enclave/enclave.cpp:705–729`. -/
def acceptEntries (o : Oracle) (req : AppendReq) : Ecall Unit := do
  modifySelf fun p ↦ p.removeElementsAfter req.prevIndex
  modifySelf fun p ↦ { p with log := p.log ++ req.entries }
  let self ← getSelf
  if req.commitIndex > self.commitIndex then
    updateCommitIndex o (min req.commitIndex (self.log.length - 1))
  macAndSendMsg <| .appendRsp
    { target := req.source, source := self.id, term := self.term, prevTerm := req.prevTerm,
      prevIndex := req.prevIndex, success := true, lastIndex := self.log.length - 1 }

/-- `recv_append_req`. `src/enclave/enclave.cpp:670–730`. -/
def recvAppendReq (o : Oracle) (valid : Bool) (req : AppendReq) : Ecall Unit := do
  let verified ← verifyMacAndOwnTerm valid req.target req.source req.term
  if verified then
    let self ← getSelf
    let verified ← verifyMsgTerm req.term <| .appendRsp
      { target := req.source, source := self.id, term := self.term, prevTerm := 0, prevIndex := 0,
        success := false, lastIndex := 0 }
    if verified then
      if self.role = .follower then
        if uidsEqual req.source self.leader then updateTimeout o
        if !self.termAndIndexExistInLog req.prevTerm req.prevIndex then
          macAndSendMsg <| .appendRsp
            { target := req.source, source := self.id, term := self.term,
              prevTerm := req.prevTerm, prevIndex := req.prevIndex, success := false,
              lastIndex := 2 ^ 32 - 1 }
        else acceptEntries o req

/-- `recv_append_rsp`. `src/enclave/enclave.cpp:732–767`. -/
def recvAppendRsp (o : Oracle) (valid : Bool) (rsp : AppendRsp) : Ecall Unit := do
  let verified ← verifyMacAndOwnTerm valid rsp.target rsp.source rsp.term
  if verified then
    let self ← getSelf
    if self.role = .leader then
      if rsp.success then
        modifySelf fun p ↦ { p with indices := p.indices.insert rsp.source rsp.lastIndex }
        let self ← getSelf
        let index ← self.largestMajorityIndex
        let entry ← self.entryAt index
        if entry.term = self.term ∧ index > self.commitIndex then updateCommitIndex o index
      else
        -- at 0 the index wraps, and the read is outside the log
        let prev ← self.entryAtInt (rsp.prevIndex - 1)
        macAndSendMsg <| .appendReq
          { target := rsp.source, source := self.id, term := self.term, prevTerm := prev.term,
            prevIndex := prev.index, commitIndex := self.commitIndex,
            entries := self.log.drop rsp.prevIndex }

/-- The log comparison of polls and elections: our last entry is not ahead.
`src/enclave/enclave.cpp:783–785,837–839`. -/
def logNotAhead (last : Entry) (lastTerm lastIndex : Nat) : Bool :=
  !(last.term > lastTerm || last.term == lastTerm && last.index > lastIndex)

/-- `recv_poll_req`; a request of an old term is refused and then answered as well.
`src/enclave/enclave.cpp:769–805`. -/
def recvPollReq (valid : Bool) (req : PollReq) : Ecall Unit := do
  let verified ← verifyMacAndOwnTerm valid req.target req.source req.term
  if verified then
    let self ← getSelf
    let _ ← verifyMsgTerm req.term <| .pollRsp
      { target := req.source, source := self.id, term := self.term, success := false }
    if self.role = .follower then
      let last ← self.lastEntry
      macAndSendMsg <| .pollRsp
        { target := req.source, source := self.id, term := self.term,
          success := logNotAhead last req.lastTerm req.lastIndex && minTimeExceeded self }

/-- `recv_poll_rsp`. `src/enclave/enclave.cpp:807–824`. -/
def recvPollRsp (o : Oracle) (valid : Bool) (rsp : PollRsp) : Ecall Unit := do
  let verified ← verifyMacAndOwnTerm valid rsp.target rsp.source rsp.term
  if verified then
    let self ← getSelf
    if self.role = .follower then
      if rsp.success then modifySelf fun p ↦ { p with pollVotes := p.pollVotes + 1 }
      let self ← getSelf
      if self.pollVotes > self.clusterSize / 2 then startElection o

/-- `recv_election_req`. `src/enclave/enclave.cpp:826–853`. -/
def recvElectionReq (valid : Bool) (req : ElectionReq) : Ecall Unit := do
  let verified ← verifyMacAndOwnTerm valid req.target req.source req.term
  if verified then
    let self ← getSelf
    let verified ← verifyMsgTerm req.term <| .electionRsp
      { target := req.source, source := self.id, term := self.term, success := false }
    if verified then
      if self.role = .follower then
        let last ← self.lastEntry
        let validElectionRequest :=
          uidsEqual self.endorsement emptyUid && logNotAhead last req.lastTerm req.lastIndex
        if validElectionRequest then
          modifySelf fun p ↦ { p with endorsement := req.source }
        macAndSendMsg <| .electionRsp
          { target := req.source, source := self.id, term := self.term,
            success := validElectionRequest }

/-- `recv_election_rsp`. `src/enclave/enclave.cpp:855–875`. -/
def recvElectionRsp (o : Oracle) (valid : Bool) (rsp : ElectionRsp) : Ecall Unit := do
  let verified ← verifyMacAndOwnTerm valid rsp.target rsp.source rsp.term
  if verified then
    let self ← getSelf
    if self.role = .candidate then
      if rsp.success then
        modifySelf fun p ↦ { p with electionVotes := p.electionVotes + 1 }
        let self ← getSelf
        if self.electionVotes > self.clusterSize / 2 then
          heartbeat
          becomeLeader o

/-- `recv_log_req`. `src/enclave/enclave.cpp:877–919`. -/
def recvLogReq (valid : Bool) (req : LogReq) : Ecall Unit := do
  let self ← getSelf
  if !valid then return
  else if !uidsEqual self.id req.target then return
  else if self.role = .leader then
    let entries ← (List.range (self.commitIndex + 1)).mapM fun i ↦ (self.entryAt i : Ecall Entry)
    macAndSendMsg <| .logRsp
      { target := req.source, source := self.id, success := true, leader := emptyUid,
        entries := entries }
  else
    macAndSendMsg <| .logRsp
      { target := req.source, source := self.id, success := false, leader := self.leader,
        entries := [] }

/-- `recv_log_rsp`; the target is not compared with the own id.
`src/enclave/enclave.cpp:921–946`. -/
def recvLogRsp (valid : Bool) (rsp : LogRsp) : Ecall Unit := do
  if valid then
    let eventId ← peerToEventMapAt rsp.source
    if !rsp.success then
      modifySelf fun p ↦ { p with leaderMap := p.leaderMap.insert eventId rsp.leader }
      let self ← getSelf
      macAndSendMsg (.logReq { target := rsp.leader, source := self.id })
    else modify fun s ↦ { s with returned := s.returned ++ [(eventId, rsp.entries)] }

/-- `execute`. `src/enclave/enclave.cpp:948–961`. -/
def execute (o : Oracle) (eventId : Uid) : Ecall Unit := do
  let leader ← leaderMapAt eventId
  let self ← getSelf
  let uid ← generateRandomUid o
  macAndSendMsg <| .commandReq
    { target := leader, source := self.id, tag := ⟨uid, .lock⟩, event := eventId }

/-- `get_history`. `src/enclave/enclave.cpp:963–976`. -/
def getHistory : Ecall Unit := do
  let self ← getSelf
  let reqs ← self.workflow.eventStore.keys.mapM fun event ↦ do
    let leader ← leaderMapAt event
    return Message.logReq { target := leader, source := self.id }
  macAndBroadcastMsgs reqs

/-- What `timeout` does for a leader. `src/enclave/enclave.cpp:979–983`. -/
def leaderTimeout (o : Oracle) : Ecall Unit := do
  heartbeat
  retryRequests o
  updateTimeout o

/-- `timeout`; each role is tested where the previous branch left it.
`src/enclave/enclave.cpp:978–993`. -/
def timeout (o : Oracle) : Ecall Unit := do
  if (← getSelf).role = .leader then leaderTimeout o
  if (← getSelf).role = .candidate then startElection o
  if (← getSelf).role = .follower then
    updateTimeout o
    startPoll

/-- `set_time`. `src/enclave/enclave.cpp:995–1000`. -/
def setTime (o : Oracle) (ticks : UInt64) : Ecall Unit := do
  let startup := (← getSelf).now == 0
  modifySelf fun p ↦ { p with now := ticks }
  let self ← getSelf
  if self.now > self.t && !startup then timeout o

/-- `configure_enclave`; the peer map is the array of its pairs.
`src/enclave/enclave.cpp:1003–1061`. -/
def configureEnclave (o : Oracle) (selfId : Uid) (wf : IntermediateDcrWorkflow)
    (peerMap : List (Uid × Uid)) : Ecall Unit := do
  modifySelf fun p ↦
    let peerToEventMap := createPeerToEventMap peerMap
    let clusterEvent := peerToEventMap.getD selfId p.clusterEvent
    let clusterMembers := findClusterMembers peerToEventMap clusterEvent
    { p with
      id := selfId
      log := p.log ++ [getEmptyEntry]
      retriedResponses := false
      now := 0
      workflow := makeWorkflow wf
      peerToEventMap := peerToEventMap
      clusterEvent := clusterEvent
      leaderMap := pickLeaders peerToEventMap
      lastCheckpoint := 0
      role := .follower
      clusterMembers := clusterMembers
      clusterSize := clusterMembers.length
      lockedEntryIndex := -1 }
  let self ← getSelf
  let leader ← leaderMapAt self.clusterEvent
  modifySelf fun p ↦ p.updateTerm 0 leader
  if self.clusterSize = 1 then becomeLeader o

end TrustedDcr.Enclave
