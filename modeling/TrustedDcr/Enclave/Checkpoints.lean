import TrustedDcr.Enclave.Leading
import TrustedDcr.Theory.Logs

/-!
# Where `last_checkpoint` moves

`has_unresolved_lock` starts at `last_checkpoint`, which a leader moves when it
appends a checkpoint and when it commits one, and sets on its election. `Mark` lists
what a leader's call can do to what that scan reads; every call but an election is a
sequence of marks.
-/

namespace TrustedDcr.Enclave
open TrustedDcr.Msg TrustedDcr.Dcr TrustedDcr.Theory

/-! ### Scans -/

/-- An entry up to the position `c`, of the event of the LOCK at `i` and after it, is no LOCK. -/
def Freed (log : List Entry) (c i : Nat) (lock : Entry) : Prop :=
  ∃ j e, i < j ∧ j ≤ c ∧ log[j]? = some e ∧ e.tag.type ≠ .lock ∧ e.event = lock.event

/-- A lock freed stays freed as the log grows and commits more. -/
theorem Freed.mono {log log' : List Entry} {c c' i : Nat} {lock : Entry} (h : Freed log c i lock)
    (hpre : log <+: log') (hle : c ≤ c') : Freed log' c' i lock := by
  obtain ⟨j, e, hij, hj, he, free⟩ := h
  exact ⟨j, e, hij, hj.trans hle, getElem?_of_isPrefix hpre he, free⟩

namespace Peer

variable {p : Peer}

/-- A LOCK counts as resolved when it is freed up to the commit index. -/
theorem lockIsResolved_iff_freed {i : Nat} {lock : Entry} (found : p.log[i]? = some lock)
    (type : lock.tag.type = .lock) :
    p.lockIsResolved i = .ok true ↔ Freed p.log p.commitIndex i lock :=
  p.lockIsResolved_iff found type

/-- A scan that finds nothing has found every LOCK from the checkpoint on resolved. -/
theorem freed_of_hasUnresolvedLock (h : p.hasUnresolvedLock = .ok none) {i : Nat} {lock : Entry}
    (reached : p.lastCheckpoint ≤ i) (committed : i ≤ p.commitIndex)
    (found : p.log[i]? = some lock) (type : lock.tag.type = .lock) :
    Freed p.log p.commitIndex i lock := by
  have test := firstIndex_eq_none h i (by rw [List.mem_range'_1]; omega)
  rw [show p.entryAt i = .ok lock by unfold entryAt; rw [found]] at test
  change (if lock.tag.type = .lock then _ else _ : Except Fault Bool) = _ at test
  rw [if_pos type] at test
  apply (p.lockIsResolved_iff_freed found type).mp
  cases resolved : p.lockIsResolved i with
  | error =>
    rw [resolved] at test
    exact nomatch test
  | ok b =>
    rw [resolved] at test
    rw [show b = true by simpa [bind, Except.bind, pure, Except.pure] using test]

/-- The position that a scan finds holds an unresolved LOCK. -/
theorem unresolved_of_hasUnresolvedLock {i : Nat} (h : p.hasUnresolvedLock = .ok (some i)) :
    p.lastCheckpoint ≤ i ∧ i ≤ p.commitIndex ∧
      ∃ lock, p.log[i]? = some lock ∧ lock.tag.type = .lock ∧ p.lockIsResolved i = .ok false := by
  obtain ⟨hi, test⟩ := firstIndex_eq_some h
  rw [List.mem_range'_1] at hi
  cases he : p.entryAt i with
  | error =>
    rw [he] at test
    exact nomatch test
  | ok lock =>
    rw [he] at test
    change (if lock.tag.type = .lock then _ else _ : Except Fault Bool) = _ at test
    by_cases type : lock.tag.type = .lock
    · rw [if_pos type] at test
      refine ⟨by omega, by omega, lock, entryAt_ok he, type, ?_⟩
      cases resolved : p.lockIsResolved i with
      | error =>
        rw [resolved] at test
        exact nomatch test
      | ok b =>
        rw [resolved] at test
        rw [show b = false by simpa [bind, Except.bind, pure, Except.pure] using test]
    · rw [if_neg type] at test
      exact nomatch test

/-- Inside the log the scan finds an unresolved LOCK exactly when there is one from the checkpoint
on. -/
theorem exists_hasUnresolvedLock_iff (inside : p.commitIndex < p.log.length) :
    (∃ i, p.hasUnresolvedLock = .ok (some i)) ↔ ∃ i lock, p.lastCheckpoint ≤ i ∧
      i ≤ p.commitIndex ∧ p.log[i]? = some lock ∧ lock.tag.type = .lock ∧
      p.lockIsResolved i = .ok false := by
  constructor
  · rintro ⟨i, h⟩
    obtain ⟨hle, hc, lock, found, type, resolved⟩ := unresolved_of_hasUnresolvedLock h
    exact ⟨i, lock, hle, hc, found, type, resolved⟩
  · rintro ⟨i, lock, hle, hc, found, type, resolved⟩
    obtain ⟨none | i, h⟩ := exists_hasUnresolvedLock inside
    · have freed := freed_of_hasUnresolvedLock h hle hc found type
      rw [← p.lockIsResolved_iff_freed found type, resolved] at freed
      exact nomatch freed
    · exact ⟨i, h⟩

/-- A scan that passes or fails at a position has read it. -/
theorem lt_of_entryAt_bind {α : Type} {i : Nat} {f : Entry → Except Fault α} {a : α}
    (h : (p.entryAt i >>= f) = .ok a) : i < p.log.length := by
  cases he : p.entryAt i with
  | error =>
    rw [he] at h
    exact nomatch h
  | ok e => exact (List.getElem?_eq_some_iff.mp (entryAt_ok he)).1

/-- An unresolved LOCK has been compared with every committed entry after it. -/
theorem inside_of_lockIsResolved {i : Nat} (h : p.lockIsResolved i = .ok false)
    (committed : i ≤ p.commitIndex) : p.commitIndex < p.log.length := by
  have here := lt_of_entryAt_bind (f := fun lock ↦ _) h
  rcases Nat.lt_or_eq_of_le committed with hlt | rfl
  · unfold lockIsResolved at h
    cases hlock : p.entryAt i with
    | error =>
      rw [hlock] at h
      exact nomatch h
    | ok lock =>
      rw [hlock] at h
      change (if lock.tag.type ≠ .lock then _ else _ : Except Fault Bool) = _ at h
      by_cases type : lock.tag.type = .lock
      · rw [if_neg (by simp [type])] at h
        generalize scan : firstIndex _ _ = found at h
        cases found with
        | error => exact nomatch h
        | ok found =>
          cases found with
          | some j => exact nomatch h
          | none =>
            exact lt_of_entryAt_bind
              (firstIndex_eq_none scan p.commitIndex (by rw [List.mem_range'_1]; omega))
      · rw [if_pos type] at h
        exact nomatch h
  · exact here

/-- A scan with a result has read the log up to the commit index, unless it starts beyond. -/
theorem inside_of_hasUnresolvedLock {found : Option Nat} (h : p.hasUnresolvedLock = .ok found)
    (checkpoint : p.commitIndex < p.lastCheckpoint → p.lastCheckpoint < p.log.length) :
    p.commitIndex < p.log.length := by
  rcases Nat.lt_or_ge p.commitIndex p.lastCheckpoint with hlt | hle
  · have := checkpoint hlt
    omega
  · cases found with
    | none =>
      exact lt_of_entryAt_bind
        (firstIndex_eq_none h p.commitIndex (by rw [List.mem_range'_1]; omega))
    | some i =>
      obtain ⟨-, hc, lock, -, -, resolved⟩ := unresolved_of_hasUnresolvedLock h
      exact inside_of_lockIsResolved resolved hc

/-- The last checkpoint below a position is a checkpoint, or the first position. -/
theorem latestCheckpointBelow_spec (log : List Entry) (n : Nat) :
    latestCheckpointBelow log n = 0 ∨
      ∃ e, log[latestCheckpointBelow log n]? = some e ∧ e.tag.type = .checkpoint := by
  induction n with
  | zero => exact Or.inl rfl
  | succ n ih =>
    unfold latestCheckpointBelow
    cases he : log[n]? with
    | none => exact ih
    | some e =>
      dsimp only
      split
      · next type => exact Or.inr ⟨e, he, type⟩
      · exact ih

end Peer

/-! ### Marks -/

/-- What the scan for unresolved locks goes by, and what decides whether it matters. -/
structure Scan where
  role : Role
  term : Nat
  log : List Entry
  commitIndex : Nat
  lastCheckpoint : Nat
  clusterSize : Nat

/-- The scan of a peer. -/
def Peer.scan (p : Peer) : Scan :=
  ⟨p.role, p.term, p.log, p.commitIndex, p.lastCheckpoint, p.clusterSize⟩

/-- `last_checkpoint` after the entries are committed. -/
def markAll (last : Nat) (entries : List Entry) : Nat :=
  entries.foldl (fun last e ↦ if e.tag.type = .checkpoint then e.index else last) last

/-- Every LOCK between the checkpoint and the commit index is freed there, and none waits beyond. -/
structure Scan.Clear (v : Scan) : Prop where
  freed : ∀ i lock, v.lastCheckpoint ≤ i → i ≤ v.commitIndex → v.log[i]? = some lock →
    lock.tag.type = .lock → Freed v.log v.commitIndex i lock
  committed : ∀ i lock, v.commitIndex < i → v.log[i]? = some lock → lock.tag.type ≠ .lock

/-- One thing a leader's call does to its scan. -/
inductive Mark : Scan → Scan → Prop
  | append {v : Scan} (e : Entry) (leads : v.role = .leader) : Mark v { v with log := v.log ++ [e] }
  | commit {v : Scan} {index : Nat} {e : Entry} (leads : v.role = .leader)
      (found : v.log[index]? = some e) (term : e.term = v.term) (ahead : v.commitIndex < index) :
      Mark v { v with
        commitIndex := index
        lastCheckpoint := markAll v.lastCheckpoint
          ((v.log.take (index + 1)).drop (v.commitIndex + 1)) }
  | checkpoint {v : Scan} {e : Entry} (leads : v.role = .leader)
      (found : v.log[e.index]? = some e) (type : e.tag.type = .checkpoint)
      (clear : v.commitIndex < e.index → v.Clear) : Mark v { v with lastCheckpoint := e.index }

/-- The scan is the same. -/
def Spares (s t : EnclaveState) : Prop := t.self.scan = s.self.scan

instance : Std.Refl Spares := ⟨fun _ ↦ rfl⟩
instance : IsTrans EnclaveState Spares := ⟨fun _ _ _ st tu ↦ Eq.trans tu st⟩

/-- A peer that leads afterwards has led before and marked its scan. -/
def Marks (s t : EnclaveState) : Prop :=
  t.self.role = .leader → s.self.role = .leader ∧ (s.self.commitIndex < s.self.log.length →
    t.self.commitIndex < t.self.log.length ∧ Relation.ReflTransGen Mark s.self.scan t.self.scan)

namespace Marks

variable {s t u : EnclaveState}

/-- Where the scan is the same. -/
theorem of_spares (h : Spares s t) : Marks s t := by
  intro leads
  refine ⟨(congrArg Scan.role h).symm.trans leads, fun inside ↦ ?_⟩
  rw [h]
  have hc : t.self.commitIndex = s.self.commitIndex := congrArg Scan.commitIndex h
  have hl : t.self.log = s.self.log := congrArg Scan.log h
  rw [hc, hl]
  exact ⟨inside, .refl⟩

/-- Where the peer leads afterwards at most if it has led before, with the same scan. -/
theorem of_led (h : Led Peer.scan s t) : Marks s t := fun leads ↦
  ⟨(h leads).1, (of_spares (h leads).2 leads).2⟩

/-- Two calls that mark their scans do so in a row. -/
protected theorem trans (st : Marks s t) (tu : Marks t u) : Marks s u := by
  intro leads
  obtain ⟨leads, after⟩ := tu leads
  obtain ⟨leads, before⟩ := st leads
  refine ⟨leads, fun inside ↦ ?_⟩
  obtain ⟨inside, marks⟩ := before inside
  obtain ⟨inside, marks'⟩ := after inside
  exact ⟨inside, marks.trans marks'⟩

instance : Std.Refl Marks := ⟨fun _ ↦ of_spares rfl⟩
instance : IsTrans EnclaveState Marks := ⟨fun _ _ _ ↦ Marks.trans⟩

end Marks

/-! ### Helpers that spare the scan -/

section
variable {o : Oracle}

/-- The scan is apart from routing, timers and votes. -/
theorem apart_scan : Apart Peer.scan :=
  ⟨fun _ _ ↦ rfl, fun _ _ ↦ rfl, fun _ _ _ ↦ rfl, fun _ _ ↦ rfl, fun _ _ ↦ rfl⟩

private theorem spares_modifySelf {f : Peer → Peer} (h : ∀ p, (f p).scan = p.scan) :
    Along Spares (modifySelf f) := same_modifySelf _ h

private theorem spares_updateTimeout : Along Spares (updateTimeout o) := apart_scan.updateTimeout

private theorem spares_sendCommands (tag : CommandTag) (events : List Uid) :
    Along Spares (sendCommands o tag events) := by
  intro s
  refine wp_mono (filed_sendCommands tag events s) ?_
  rintro _ _ ⟨_, ⟨⟨leaders, rfl⟩, -⟩, rfl⟩
  rfl

/-! ### Entries appended and committed -/

/-- Entries mark the last checkpoint one after the other. -/
theorem markAll_cons (last : Nat) (e : Entry) (entries : List Entry) :
    markAll last (e :: entries) =
      markAll (if e.tag.type = .checkpoint then e.index else last) entries := rfl

/-- The leader's loop moves the checkpoint to the last one committed. -/
theorem marks_commitEntries (round : Nat) (entries : List Entry) (s : EnclaveState) :
    wp (commitEntries o round entries) (fun _ t ↦ t.self.scan =
      { s.self.scan with lastCheckpoint := markAll s.self.lastCheckpoint entries }) s := by
  induction entries generalizing round s with
  | nil => exact wp_pure.mpr rfl
  | cons entry entries ih =>
    have one : wp (commitEntry o round entry) (fun _ t ↦ t.self.scan =
        { s.self.scan with lastCheckpoint := markAll s.self.lastCheckpoint [entry] }) s := by
      have other (type : entry.tag.type ≠ .checkpoint) :
          markAll s.self.lastCheckpoint [entry] = s.self.lastCheckpoint := by
        rw [markAll_cons, if_neg type]
        rfl
      refine wp_commitEntry ?_ ?_ ?_ ?_ ?_
      · intro type
        rw [markAll_cons, if_pos type]
        rfl
      · intro type _
        rw [other (by simp [type])]
        exact (along_getSelf.bind fun _ ↦ spares_sendCommands _ _) s
      · intro type _
        rw [other (by simp [type])]
        rfl
      · intro type
        rw [other (by simp [type])]
        rfl
      · intro type _ _
        rw [other (by simp [type])]
        rfl
    rw [wp_commitEntries_cons]
    refine wp_mono one fun _ t ht ↦ wp_mono (ih _ t) fun _ u hu ↦ ?_
    rw [hu, ht, show t.self.lastCheckpoint = markAll s.self.lastCheckpoint [entry] from
      congrArg Scan.lastCheckpoint ht]
    rfl

/-- A leader's commitment. -/
theorem marks_updateCommitIndex {s : EnclaveState} {index : Nat} {e : Entry}
    (leads : s.self.role = .leader) (found : s.self.log[index]? = some e)
    (term : e.term = s.self.term) (ahead : s.self.commitIndex < index) :
    wp (updateCommitIndex o index) (fun _ t ↦ Mark s.self.scan t.self.scan ∧
      t.self.log = s.self.log ∧ t.self.commitIndex = index) s := by
  unfold updateCommitIndex
  rw [wp_bind, wp_getSelf, wp_bind, wp_lift]
  intro committed hcommitted
  rw [newlyCommitted_ok hcommitted, if_neg (by simp [leads]), wp_bind]
  refine wp_mono (marks_commitEntries 0 _ s) fun responses t ht ↦ ?_
  rw [wp_bind, wp_macAndBroadcastMsgs, wp_modifySelf]
  have hscan : ({ t.self with commitIndex := index } : Peer).scan =
      { s.self.scan with
        commitIndex := index
        lastCheckpoint := markAll s.self.lastCheckpoint
          ((s.self.log.take (index + 1)).drop (s.self.commitIndex + 1)) } :=
    congrArg (fun v : Scan ↦ { v with commitIndex := index }) ht
  refine ⟨?_, congrArg Scan.log ht, rfl⟩
  change Mark s.self.scan ({ t.self with commitIndex := index } : Peer).scan
  rw [hscan]
  exact Mark.commit (v := s.self.scan) leads found term ahead

/-- A leader appends an entry of its term, which it commits when it is alone. -/
theorem marks_appendToLog {s : EnclaveState} {entry : Entry} (leads : s.self.role = .leader)
    (term : entry.term = s.self.term) :
    wp (appendToLog o entry) (fun _ t ↦ Marks s t ∧ (s.self.commitIndex < s.self.log.length →
      t.self.log = s.self.log ++ [entry] ∧
        (t.self.commitIndex = s.self.log.length ∨
          t.self.scan = { s.self.scan with log := s.self.log ++ [entry] }))) s := by
  have append : Mark s.self.scan { s.self.scan with log := s.self.log ++ [entry] } :=
    Mark.append (v := s.self.scan) entry leads
  unfold appendToLog
  refine wp_bind_modifySelf fun t ht ↦ ?_
  have hscan : t.self.scan = { s.self.scan with log := s.self.log ++ [entry] } := by rw [ht]; rfl
  have hlog : t.self.log = s.self.log ++ [entry] := congrArg Scan.log hscan
  have hcommit : t.self.commitIndex = s.self.commitIndex := congrArg Scan.commitIndex hscan
  have hlength : t.self.log.length = s.self.log.length + 1 := by rw [hlog]; simp
  by_cases inside : s.self.commitIndex < s.self.log.length
  · rw [wp_bind, wp_getSelf, wp_ite]
    constructor
    · intro _
      have found : t.self.log[t.self.log.length - 1]? = some entry := by
        rw [hlog, List.length_append, List.length_singleton, Nat.add_sub_cancel]
        exact List.getElem?_concat_length
      refine wp_mono (marks_updateCommitIndex (o := o) ((congrArg Scan.role hscan).trans leads) found
        (term.trans (congrArg Scan.term hscan).symm) (by omega)) ?_
      rintro _ u ⟨commit, hu, hindex⟩
      rw [hscan] at commit
      refine ⟨fun _ ↦ ⟨leads, fun _ ↦ ⟨?_, (Relation.ReflTransGen.single append).tail commit⟩⟩,
        fun _ ↦ ⟨hu.trans hlog, Or.inl ?_⟩⟩
      · rw [hu, hindex]
        omega
      · rw [hindex]
        omega
    · intro _
      have spares : Along Spares (do
          broadcastLast
          updateTimeout o) := (same_broadcastLast _).bind fun _ ↦ spares_updateTimeout
      refine wp_mono (spares t) fun _ u hu ↦ ?_
      have hscan : u.self.scan = { s.self.scan with log := s.self.log ++ [entry] } :=
        Eq.trans hu hscan
      have hlog : u.self.log = s.self.log ++ [entry] := congrArg Scan.log hscan
      refine ⟨fun _ ↦ ⟨leads, fun _ ↦ ⟨?_, ?_⟩⟩, fun _ ↦ ⟨hlog, Or.inr hscan⟩⟩
      · rw [hlog, show u.self.commitIndex = s.self.commitIndex from
          congrArg Scan.commitIndex hscan, List.length_append]
        omega
      · rw [hscan]
        exact .single append
  · exact fun _ _ _ ↦ ⟨fun _ ↦ ⟨leads, fun h ↦ absurd h inside⟩, fun h ↦ absurd h inside⟩

/-! ### Calls -/

/-- Marks are what a leader's calls are made of. -/
theorem alongCalls_marks : AlongCalls o Peer.scan Marks where
  beside := {
    apart_scan with
    workflow := fun _ _ ↦ rfl
    missingResp := fun _ _ ↦ rfl
    lockedEvents := fun _ _ ↦ rfl
    indices := fun _ _ ↦ rfl
    electionVotes := fun _ _ ↦ rfl
    role := fun h ↦ congrArg Scan.role h
    term := fun h ↦ congrArg Scan.term h }
  led := Marks.of_led
  append leads term := wp_mono (marks_appendToLog leads term) fun _ _ h ↦ h.1

/-- An abort appends its entry. -/
theorem marks_abortExecution {tagId : Uid} {s : EnclaveState} (leads : s.self.role = .leader) :
    wp (abortExecution o tagId) (fun _ t ↦ Marks s t) s := by
  unfold abortExecution
  refine wp_bind_along (spares_modifySelf (by simp [Peer.scan])) fun _ t ht ↦ ?_
  rw [wp_bind, wp_getSelf, wp_bind]
  refine wp_mono (marks_appendToLog ((congrArg Scan.role ht).trans leads) rfl)
    fun _ u ⟨htu, _⟩ ↦ ?_
  rw [wp_bind, wp_getSelf, wp_bind]
  refine wp_mono (recalled_mapM_abortCommand tagId _ u) ?_
  rintro reqs _ ⟨-, ⟨leaders, rfl⟩, -⟩
  refine wp_macAndBroadcastMsgs.mpr ((Marks.of_spares ht).trans (htu.trans ?_))
  exact Marks.of_spares rfl

private theorem marks_recvAbortRsp {rsp : CommandRsp} {s : EnclaveState}
    (leads : s.self.role = .leader) : wp (recvAbortRsp o rsp) (fun _ t ↦ Marks s t) s := by
  cases starts : s.self.startsAbort rsp.source with
  | true =>
    obtain ⟨t, ⟨⟨leaders, rfl⟩, -⟩, h⟩ := recvAbortRsp_of_starts (o := o) starts
    unfold wp
    rw [h]
    exact marks_abortExecution leads
  | false =>
    refine wp_mono (recvAbortRsp_of_not_starts starts) ?_
    rintro _ _ ⟨⟨leaders, rfl⟩, -⟩
    exact Marks.of_spares rfl

/-- A command response leaves the scan of a leader marked. -/
theorem marks_recvCommandRsp (valid : Bool) (rsp : CommandRsp) :
    Along Marks (recvCommandRsp o valid rsp) := by
  intro s
  apply alongCalls_marks.recvCommandRsp
  intro handles _ t ht _
  exact marks_recvAbortRsp (alongCalls_marks (o := o).leads ht handles.2.2.1)

/-- A leader commits when a quorum has acknowledged an entry of its term. -/
theorem marks_recvAppendRsp (valid : Bool) (rsp : AppendRsp) :
    Along Marks (recvAppendRsp o valid rsp) := by
  intro s
  apply alongCalls_marks.recvAppendRsp
  intro t index e leads found term ahead
  refine wp_mono (marks_updateCommitIndex leads found term ahead) ?_
  rintro _ u ⟨commit, hlog, hindex⟩
  refine fun _ ↦ ⟨leads, fun _ ↦ ⟨?_, .single commit⟩⟩
  rw [hlog, hindex]
  exact (List.getElem?_eq_some_iff.mp found).1

/-- The scan for unresolved locks goes by nothing else. -/
theorem Peer.hasUnresolvedLock_congr {p q : Peer} (h : p.scan = q.scan) :
    p.hasUnresolvedLock = q.hasUnresolvedLock := by
  unfold hasUnresolvedLock lockIsResolved entryAt
  rw [show p.log = q.log from congrArg Scan.log h,
    show p.commitIndex = q.commitIndex from congrArg Scan.commitIndex h,
    show p.lastCheckpoint = q.lastCheckpoint from congrArg Scan.lastCheckpoint h]

/-- The peer with the checkpoint that it scans from once it is elected. -/
def Peer.elected (p : Peer) : Peer := { p with lastCheckpoint := p.findLatestCheckpoint }

/-- The candidate has won its election, and scans from the latest checkpoint of its log. -/
structure Wins (rsp : ElectionRsp) (s t : EnclaveState) : Prop where
  elects : s.self.wins rsp = true
  scan : t.self.scan = { s.self.elected.scan with role := .leader }
  scanned : ∃ found, s.self.elected.hasUnresolvedLock = .ok found

/-- The scan of a new leader is that of the peer as elected, its log having been read through. -/
theorem becomeLeader_scan (s : EnclaveState) : wp (becomeLeader o) (fun _ t ↦
    t.self.scan = { s.self.elected.scan with role := .leader } ∧
      ∃ found, s.self.elected.hasUnresolvedLock = .ok found) s := by
  unfold becomeLeader
  refine wp_bind_modifySelf fun t ht ↦ ?_
  have hself : t.self = s.self.elected := by rw [ht]; rfl
  rw [wp_bind, wp_getSelf, wp_bind, wp_lift]
  intro found hfound
  rw [hself] at hfound
  have lead {u : EnclaveState} (hu : Spares t u) : wp (do
      modifySelf fun p ↦
        { p with role := .leader, leaderMap := p.leaderMap.insert p.clusterEvent p.id }
      updateTimeout o) (fun _ v ↦ v.self.scan = { s.self.elected.scan with role := .leader } ∧
        ∃ found, s.self.elected.hasUnresolvedLock = .ok found) u := by
    refine wp_bind_modifySelf fun v hv ↦ wp_mono (spares_updateTimeout v) fun _ w hw ↦ ?_
    refine ⟨?_, found, hfound⟩
    rw [← hself, show w.self.scan = v.self.scan from hw, hv]
    exact congrArg (fun v : Scan ↦ { v with role := .leader }) hu
  cases found with
  | some index =>
    exact wp_bind_along (spares_modifySelf (by simp [Peer.scan])) fun _ u hu ↦ lead hu
  | none => exact wp_bind_along (spares_modifySelf (by simp [Peer.scan])) fun _ u hu ↦ lead hu

/-- Whoever leads after an election has won it or led before. -/
theorem marks_recvElectionRsp (valid : Bool) (rsp : ElectionRsp) (s : EnclaveState) :
    wp (recvElectionRsp o valid rsp) (fun _ t ↦ Marks s t ∨ Wins rsp s t) s := by
  refine wp_mono (led_recvElectionRsp (alongCalls_marks (o := o)).beside.electionVotes valid rsp s) ?_
  rintro _ t (led | ⟨elects, ms, elected⟩)
  · exact Or.inl (Marks.of_led led)
  · obtain ⟨scan, scanned⟩ := becomeLeader_scan _ _ t elected
    exact Or.inr ⟨elects, scan, scanned⟩

/-! ### Timeouts -/

/-- No request waits, no LOCK is found unresolved, and something was committed since the last
checkpoint. `src/enclave/enclave.cpp:224–226`. -/
def Peer.dueCheckpoint (p : Peer) : Bool :=
  p.missingResp.size == 0 &&
    (match p.hasUnresolvedLock with
    | .ok found => found.isNone
    | .error _ => false) &&
    decide (p.lastCheckpoint < p.commitIndex)

/-- At this time the leader appends a checkpoint. `src/enclave/enclave.cpp:202–238, 978–1000`. -/
def Peer.checkpoints (p : Peer) (ticks : UInt64) : Bool :=
  p.role == .leader && decide (p.t < ticks) && p.now != 0 && p.dueCheckpoint

/-- Only a leader whose scan finds no unresolved lock appends a checkpoint. -/
theorem Peer.scanned_of_checkpoints {p : Peer} {ticks : UInt64} (h : p.checkpoints ticks = true) :
    p.role = .leader ∧ p.hasUnresolvedLock = .ok none := by
  unfold checkpoints dueCheckpoint at h
  cases scanned : p.hasUnresolvedLock with
  | error => simp [scanned] at h
  | ok found =>
    cases found with
    | some i => simp [scanned] at h
    | none =>
      simp only [Bool.and_eq_true, beq_iff_eq] at h
      exact ⟨h.1.1.1, rfl⟩

/-- No LOCK waits beyond the commit index. -/
def Peer.LocksCommitted (p : Peer) : Prop :=
  ∀ i < p.log.length, p.commitIndex < i → ∀ e ∈ p.log[i]?, e.tag.type ≠ .lock

instance (p : Peer) : Decidable p.LocksCommitted := by
  unfold Peer.LocksCommitted
  infer_instance

/-- Requests are sent again. -/
def Resends (s t : EnclaveState) : Prop :=
  Spares s t ∧ t.self.missingResp = s.self.missingResp

instance : Std.Refl Resends := ⟨fun _ ↦ ⟨rfl, rfl⟩⟩
instance : IsTrans EnclaveState Resends :=
  ⟨fun _ _ _ st tu ↦ ⟨IsTrans.trans _ _ _ st.1 tu.1, tu.2.trans st.2⟩⟩

private theorem Resends.dueCheckpoint {s t : EnclaveState} (h : Resends s t) :
    t.self.dueCheckpoint = s.self.dueCheckpoint := by
  unfold Peer.dueCheckpoint
  rw [h.2, Peer.hasUnresolvedLock_congr h.1,
    show t.self.lastCheckpoint = s.self.lastCheckpoint from congrArg Scan.lastCheckpoint h.1,
    show t.self.commitIndex = s.self.commitIndex from congrArg Scan.commitIndex h.1]

private theorem resends_retryRequest (key : Uid) (req : CommandReq) :
    Along Resends (retryRequest o key req) := by
  intro s
  unfold retryRequest
  refine wp_bind_of_ok (peerToEventMapAt_eq req.target s) ?_
  rw [wp_bind, wp_getSelf, wp_macAndSendMsg]
  exact ⟨rfl, rfl⟩

/-- The checkpoint of a leader without waiting LOCKs marks its scan. -/
theorem marks_checkpoint {s : EnclaveState} {e : Entry} (leads : s.self.role = .leader)
    (scanned : s.self.hasUnresolvedLock = .ok none) (clear : s.self.LocksCommitted)
    (index : e.index = s.self.log.length) (term : e.term = s.self.term)
    (type : e.tag.type = .checkpoint) :
    wp (do
      appendToLog o e
      modifySelf fun p ↦ { p with lastCheckpoint := e.index }) (fun _ t ↦ Marks s t) s := by
  rw [wp_bind]
  refine wp_mono (marks_appendToLog leads term) fun _ t ⟨hst, happend⟩ ↦ wp_modifySelf.mpr ?_
  intro (hrole : t.self.role = .leader)
  refine ⟨leads, fun inside ↦ ?_⟩
  obtain ⟨inside', marks⟩ := (hst hrole).2 inside
  obtain ⟨hlog, hcommit⟩ := happend inside
  refine ⟨inside', marks.tail (Mark.checkpoint (v := t.self.scan) hrole ?_ type fun ahead ↦ ?_)⟩
  · change t.self.log[e.index]? = some e
    rw [hlog, index]
    exact List.getElem?_concat_length
  · rcases hcommit with hcommit | hscan
    · have ahead : t.self.commitIndex < e.index := ahead
      omega
    · rw [hscan]
      constructor
      · intro i lock reached committed found type
        have committed : i ≤ s.self.commitIndex := committed
        have found : (s.self.log ++ [e])[i]? = some lock := found
        rw [getElem?_eq_of_isPrefix (List.prefix_append _ _) (by omega)] at found
        have freed := Peer.freed_of_hasUnresolvedLock scanned reached committed found type
        exact freed.mono (List.prefix_append _ _) (Nat.le_refl _)
      · intro i lock beyond found isLock
        have beyond : s.self.commitIndex < i := beyond
        have found : (s.self.log ++ [e])[i]? = some lock := found
        rcases getElem?_concat_cases found with ⟨hi, found⟩ | ⟨-, rfl⟩
        · exact clear i hi beyond lock found isLock
        · rw [type] at isLock
          exact nomatch isLock

/-- A retry appends nothing but a checkpoint that is due. -/
theorem marks_retryRequests {s : EnclaveState} (leads : s.self.role = .leader) :
    wp (retryRequests o) (fun _ t ↦ Spares s t ∨
      s.self.dueCheckpoint = true ∧ (s.self.LocksCommitted → Marks s t)) s := by
  unfold retryRequests
  rw [wp_bind, wp_getSelf]
  refine wp_bind_along (Along.forM fun r _ ↦ resends_retryRequest r.1 r.2) fun _ t ht ↦ ?_
  refine wp_bind_modifySelf fun u hu ↦ ?_
  have htu : Resends t u := by
    rw [hu]
    exact ⟨rfl, rfl⟩
  have hsu : Resends s u := IsTrans.trans _ _ _ ht htu
  clear hu
  have stop : Spares s u := hsu.1
  rw [wp_bind, wp_getSelf, wp_ite]
  refine ⟨fun none ↦ ?_, fun _ ↦ wp_pure.mpr (Or.inl stop)⟩
  rw [wp_bind, wp_lift]
  intro found hfound
  rw [wp_ite]
  refine ⟨fun free ↦ ?_, fun _ ↦ wp_pure.mpr (Or.inl stop)⟩
  rw [wp_ite]
  refine ⟨fun committed ↦ ?_, fun _ ↦ wp_pure.mpr (Or.inl stop)⟩
  have due : s.self.dueCheckpoint = true := by
    rw [← hsu.dueCheckpoint]
    unfold Peer.dueCheckpoint
    rw [hfound]
    simp [none, free, committed]
  refine wp_bind_along (same_generateRandomUid Peer.scan) fun uid v hv ↦ ?_
  have hsv : Spares s v := IsTrans.trans _ _ _ stop hv
  have same : u.self.scan = v.self.scan := Eq.symm hv
  by_cases clear : s.self.LocksCommitted
  · refine wp_mono (marks_checkpoint (o := o) (s := v)
      (e := ⟨u.self.log.length, u.self.term, u.self.clusterEvent, u.self.id, ⟨uid, .checkpoint⟩⟩)
      ((congrArg Scan.role hsv).trans leads) ?_ ?_ (congrArg (List.length ∘ Scan.log) same)
      (congrArg Scan.term same) rfl) fun _ w hw ↦ Or.inr ⟨due, fun _ ↦ ?_⟩
    · rw [← Peer.hasUnresolvedLock_congr same, hfound]
      cases found with
      | none => rfl
      | some i => exact nomatch free
    · unfold Peer.LocksCommitted
      rw [show v.self.log = s.self.log from congrArg Scan.log hsv,
        show v.self.commitIndex = s.self.commitIndex from congrArg Scan.commitIndex hsv]
      exact clear
    · exact (Marks.of_spares hsv).trans hw
  · exact fun _ _ _ ↦ Or.inr ⟨due, fun h ↦ absurd h clear⟩

/-- So does a timeout. -/
theorem marks_setTime (ticks : UInt64) (s : EnclaveState) :
    wp (setTime o ticks) (fun _ t ↦ (Marks s t ∧ t.self.log = s.self.log) ∨
      s.self.checkpoints ticks = true ∧ (s.self.LocksCommitted → Marks s t)) s := by
  have still {t : EnclaveState} (h : Spares s t) : (Marks s t ∧ t.self.log = s.self.log) ∨
      s.self.checkpoints ticks = true ∧ (s.self.LocksCommitted → Marks s t) :=
    Or.inl ⟨Marks.of_spares h, congrArg Scan.log h⟩
  unfold setTime
  rw [wp_bind, wp_getSelf]
  refine wp_bind_modifySelf fun t ht ↦ ?_
  have hst : Resends s t := by
    rw [ht]
    exact ⟨rfl, rfl⟩
  have now : t.self.now = ticks := by rw [ht]
  have expires : t.self.t = s.self.t := by rw [ht]
  clear ht
  rw [wp_bind, wp_getSelf, wp_ite]
  refine ⟨fun expired ↦ ?_, fun _ ↦ wp_pure.mpr (still hst.1)⟩
  unfold timeout
  rw [wp_bind, wp_getSelf]
  by_cases leads : t.self.role = .leader
  · -- A leader leads after its timeout, so that the other two branches are not taken.
    have led : wp (leaderTimeout o) (fun _ u ↦ u.self.role = .leader ∧ (Spares s u ∨
        s.self.checkpoints ticks = true ∧ (s.self.LocksCommitted → Marks s u))) t := by
      refine wp_and (leads_leaderTimeout leads) ?_
      unfold leaderTimeout
      rw [wp_bind]
      refine wp_mono (@heartbeat_spec none t) ?_
      rintro _ _ ⟨ms, rfl, -⟩
      rw [wp_bind]
      refine wp_mono (marks_retryRequests (o := o) (s := { t with sent := t.sent ++ ms }) leads)
        fun _ v hv ↦ wp_mono (spares_updateTimeout v) fun _ w hw ↦ ?_
      rcases hv with hv | ⟨due, hv⟩
      · exact Or.inl (IsTrans.trans _ _ _ hst.1 (IsTrans.trans _ _ _ hv hw))
      · have due : t.self.dueCheckpoint = true := due
        refine Or.inr ⟨?_, fun clear ↦ ?_⟩
        · unfold Peer.checkpoints
          rw [← hst.dueCheckpoint, due, ← expires]
          have leads : s.self.role = .leader := (congrArg Scan.role hst.1).symm.trans leads
          rw [now] at expired
          simpa [leads] using expired
        · have clear : t.self.LocksCommitted := by
            unfold Peer.LocksCommitted
            rw [show t.self.log = s.self.log from congrArg Scan.log hst.1,
              show t.self.commitIndex = s.self.commitIndex from congrArg Scan.commitIndex hst.1]
            exact clear
          exact (Marks.of_spares hst.1).trans ((hv clear).trans (Marks.of_spares hw))
    rw [if_pos leads, wp_bind]
    refine wp_mono led fun _ u ⟨leads, hu⟩ ↦ ?_
    rw [wp_bind, wp_getSelf, if_neg (by simp [leads]), wp_bind, wp_getSelf, if_neg (by simp [leads]),
      wp_pure]
    rcases hu with hu | hu
    · exact still hu
    · exact Or.inr hu
  · rw [if_neg leads, wp_bind, wp_getSelf]
    by_cases stands : t.self.role = .candidate
    · rw [if_pos stands, wp_bind]
      refine wp_mono (stands_startElection t) fun _ u ⟨stands, hlog⟩ ↦ ?_
      rw [wp_bind, wp_getSelf, if_neg (by simp [stands]), wp_pure]
      exact Or.inl ⟨Marks.of_led (Led.of_not_leads (by simp [stands])),
        hlog.trans (congrArg Scan.log hst.1)⟩
    · rw [if_neg stands, wp_bind, wp_getSelf, wp_ite]
      have poll : Along Spares (do
          updateTimeout o
          startPoll) := spares_updateTimeout.bind fun _ ↦ same_startPoll _
      exact ⟨fun _ ↦ wp_mono (poll t) fun _ _ h ↦ still (IsTrans.trans _ _ _ hst.1 h),
        fun _ ↦ wp_pure.mpr (still hst.1)⟩

end

end TrustedDcr.Enclave
