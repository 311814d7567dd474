import TrustedDcr.Enclave.Tenure

/-!
# Reads inside the log

A call has a result unless it reads a position outside the log. The scans stay below
the commit index, the other reads take their position from the peer or from a
message; a call returns where these lie inside the log.
-/

namespace TrustedDcr.Enclave
open TrustedDcr.Msg TrustedDcr.Dcr TrustedDcr.Theory

/-! ### Reads -/

namespace Peer

variable {p : Peer}

/-- An index inside the log can be read. -/
theorem exists_entryAt {i : Nat} (h : i < p.log.length) : ∃ e, p.entryAt i = .ok e := by
  unfold entryAt
  rw [List.getElem?_eq_getElem h]
  exact ⟨_, rfl⟩

/-- A signed index inside the log can be read. -/
theorem exists_entryAtInt {i : Int} (pos : 0 ≤ i) (h : i.toNat < p.log.length) :
    ∃ e, p.entryAtInt i = .ok e := by
  unfold entryAtInt
  rw [if_neg (by omega)]
  exact exists_entryAt h

/-- A log with an entry has a last one. -/
theorem exists_lastEntry (h : p.log ≠ []) : ∃ e, p.lastEntry = .ok e := by
  unfold lastEntry
  rw [List.getLast?_eq_some_getLast h]
  exact ⟨_, rfl⟩

/-- A scan returns where every test of it does. -/
theorem exists_firstIndex {test : Nat → Except Fault Bool} {is : List Nat}
    (h : ∀ i ∈ is, ∃ b, test i = .ok b) : ∃ found, firstIndex test is = .ok found := by
  induction is with
  | nil => exact ⟨none, rfl⟩
  | cons i is ih =>
    unfold firstIndex
    apply exists_ok_bind (h i List.mem_cons_self)
    intro b _
    cases b with
    | true => exact ⟨some i, rfl⟩
    | false => exact ih fun j hj ↦ h j (List.mem_cons_of_mem _ hj)

/-- A scan over positions inside the log, each of which is read for its test. -/
theorem exists_scan {test : Nat → Entry → Except Fault Bool} {is : List Nat}
    (h : ∀ i ∈ is, i < p.log.length) (htest : ∀ i ∈ is, ∀ e, ∃ b, test i e = .ok b) :
    ∃ found, firstIndex (fun i ↦ p.entryAt i >>= test i) is = .ok found := by
  apply exists_firstIndex
  intro i hi
  apply exists_ok_bind (exists_entryAt (h i hi))
  intro e _
  exact htest i hi e

/-- What the scans of the committed entries after a LOCK have in common; `other` is the answer at
an entry that is none. `src/enclave/raft.cpp:104–115,135–147`. -/
def scanAfter (p : Peer) (index : Nat) (other : Bool) (test : Entry → Entry → Bool) :
    Except Fault Bool := do
  let lock ← p.entryAt index
  if lock.tag.type ≠ .lock then return other
  let found ← firstIndex
    (fun i ↦ do
      let e ← p.entryAt i
      return test lock e)
    (List.range' (index + 1) (p.commitIndex - index))
  return found.isSome

/-- `lock_is_resolved` looks for an entry of the event that is no LOCK. -/
theorem lockIsResolved_eq_scanAfter (i : Nat) : p.lockIsResolved i =
    p.scanAfter i true fun lock e ↦ e.tag.type ≠ .lock && uidsEqual lock.event e.event := rfl

/-- `lock_resolve_is_committed` looks for any entry of the event. -/
theorem lockResolveIsCommitted_eq_scanAfter (i : Nat) : p.lockResolveIsCommitted i =
    p.scanAfter i false fun lock e ↦ uidsEqual e.event lock.event := rfl

section Scans

variable (commit : p.commitIndex < p.log.length)

include commit

private theorem exists_scanAfter {i : Nat} (h : i < p.log.length) (other : Bool)
    (test : Entry → Entry → Bool) : ∃ b, p.scanAfter i other test = .ok b := by
  unfold scanAfter
  apply exists_ok_bind (exists_entryAt h)
  intro lock _
  by_cases htype : lock.tag.type = .lock
  · rw [if_neg (by simp [htype])]
    apply exists_ok_bind (exists_scan ?_ ?_)
    · intro found _
      exact ⟨found.isSome, rfl⟩
    · intro j hj
      rw [List.mem_range'_1] at hj
      omega
    · exact fun _ _ _ ↦ ⟨_, rfl⟩
  · rw [if_pos htype]
    exact ⟨other, rfl⟩

/-- `lock_is_resolved` returns on an index inside the log. -/
theorem exists_lockIsResolved {i : Nat} (h : i < p.log.length) :
    ∃ b, p.lockIsResolved i = .ok b := by
  rw [lockIsResolved_eq_scanAfter]
  exact exists_scanAfter commit h _ _

/-- `has_unresolved_lock` returns. -/
theorem exists_hasUnresolvedLock : ∃ found, p.hasUnresolvedLock = .ok found := by
  unfold hasUnresolvedLock
  have inside : ∀ i ∈ List.range' p.lastCheckpoint (p.commitIndex + 1 - p.lastCheckpoint),
      i < p.log.length := by
    intro i hi
    rw [List.mem_range'_1] at hi
    omega
  apply exists_scan inside
  intro i hi entry
  by_cases htype : entry.tag.type = .lock
  · rw [if_pos htype]
    apply exists_ok_bind (exists_lockIsResolved commit (inside i hi))
    exact fun resolved _ ↦ ⟨!resolved, rfl⟩
  · rw [if_neg htype]
    exact ⟨false, rfl⟩

/-- `lock_resolve_is_committed` returns on an index inside the log. -/
theorem exists_lockResolveIsCommitted {i : Nat} (h : i < p.log.length) :
    ∃ b, p.lockResolveIsCommitted i = .ok b := by
  rw [lockResolveIsCommitted_eq_scanAfter]
  exact exists_scanAfter commit h _ _

end Scans

/-- The majority index is one of the indices entered. -/
theorem exists_largestMajorityIndex {r : Uid} {i : Nat} (h : p.indices[r]? = some i) :
    ∃ index, p.largestMajorityIndex = .ok index ∧ ∃ q : Uid, p.indices[q]? = some index := by
  unfold largestMajorityIndex
  have hmem : i ∈ (p.indices.toList.map Prod.snd).insertionSort (· ≤ ·) := by
    rw [List.mem_insertionSort, List.mem_map]
    exact ⟨(r, i), Std.ExtTreeMap.mem_toList_iff_getElem?_eq_some.mpr h, rfl⟩
  have hpos := List.length_pos_of_mem hmem
  have hlt : (((p.indices.toList.map Prod.snd).insertionSort (· ≤ ·)).length - 1) / 2 <
      ((p.indices.toList.map Prod.snd).insertionSort (· ≤ ·)).length := by omega
  dsimp only
  rw [List.getElem?_eq_getElem hlt]
  refine ⟨_, rfl, ?_⟩
  have hindex := List.getElem_mem hlt
  rw [List.mem_insertionSort, List.mem_map] at hindex
  obtain ⟨⟨q, index⟩, hq, heq⟩ := hindex
  rw [← heq]
  exact ⟨q, Std.ExtTreeMap.mem_toList_iff_getElem?_eq_some.mp hq⟩

end Peer

private theorem exists_newlyCommitted {p : Peer} {newIndex : Nat} (h : newIndex < p.log.length) :
    ∃ entries, newlyCommitted p newIndex = .ok entries := by
  unfold newlyCommitted
  apply exists_ok_mapM
  intro i hi
  rw [List.mem_range'_1] at hi
  exact Peer.exists_entryAt (by omega)

/-! ### Helpers that always return -/

section
variable {o : Oracle}

/-- Reading `self` returns. -/
theorem total_getSelf : Total getSelf := Total.bind (fun s ↦ ⟨s, s, rfl⟩) fun _ ↦ Total.pure _

/-- An assignment to `self` returns. -/
theorem total_modifySelf (f : Peer → Peer) : Total (modifySelf f) := Total.modify _

/-- Sending a message returns. -/
theorem total_macAndSendMsg (msg : Message) : Total (macAndSendMsg msg) := Total.modify _

/-- Broadcasting messages returns. -/
theorem total_macAndBroadcastMsgs (msgs : List Message) : Total (macAndBroadcastMsgs msgs) :=
  Total.modify _

/-- Drawing an identifier returns. -/
theorem total_generateRandomUid : Total (generateRandomUid o) :=
  (Total.modify _).bind fun _ ↦ Total.pure _

/-- Looking a leader up returns, whether one is named or not. -/
theorem total_leaderMapAt (event : Uid) : Total (leaderMapAt event) := by
  apply total_getSelf.bind
  intro self
  cases self.leaderMap[event]? with
  | some leader => exact Total.pure leader
  | none => exact (total_modifySelf _).bind fun _ ↦ Total.pure _

/-- Looking a peer's event up returns, whether it has one or not. -/
theorem total_peerToEventMapAt (peer : Uid) : Total (peerToEventMapAt peer) := by
  apply total_getSelf.bind
  intro self
  cases self.peerToEventMap[peer]? with
  | some event => exact Total.pure event
  | none => exact (total_modifySelf _).bind fun _ ↦ Total.pure _

/-- Taking in a letter's term returns. -/
theorem total_verifyMacAndOwnTerm (valid : Bool) (target source : Uid) (term : Nat) :
    Total (verifyMacAndOwnTerm valid target source term) := by
  apply Total.ite (Total.pure _)
  apply total_getSelf.bind
  intro self
  apply Total.ite (Total.pure _)
  exact Total.ite ((total_modifySelf _).bind fun _ ↦ Total.pure _) (Total.pure _)

/-- Refusing an outdated term returns. -/
theorem total_verifyMsgTerm (term : Nat) (rsp : Message) : Total (verifyMsgTerm term rsp) :=
  total_getSelf.bind fun _ ↦
    Total.ite ((total_macAndSendMsg _).bind fun _ ↦ Total.pure _) (Total.pure _)

/-- Setting the timers returns. -/
theorem total_updateTimeout : Total (updateTimeout o) := total_modifySelf _

private theorem total_eventLeader (tag : CommandTag) (event : Uid) :
    Total (eventLeader o tag event) := by
  apply total_getSelf.bind
  intro self
  cases self.leaderMap[event]? with
  | some leader => exact Total.pure leader
  | none =>
    dsimp only
    cases ((self.peerToEventMap.toList.filter fun eventPeer ↦
        uidsEqual eventPeer.2 event).map Prod.fst).getLast? with
    | some peer => exact (total_modifySelf _).bind fun _ ↦ Total.pure _
    | none => exact Total.pure _

/-- Sending commands for a list of events returns. -/
theorem total_sendCommands (tag : CommandTag) (events : List Uid) :
    Total (sendCommands o tag events) := by
  apply Total.bind (Total.mapM _)
  · exact fun reqs ↦ total_macAndBroadcastMsgs reqs
  · intro event _
    exact (total_eventLeader tag event).bind fun _ ↦ total_getSelf.bind fun _ ↦
      (total_modifySelf _).bind fun _ ↦ Total.pure _

private theorem total_retryRequest (key : Uid) (req : CommandReq) :
    Total (retryRequest o key req) :=
  (total_peerToEventMapAt _).bind fun _ ↦ total_getSelf.bind fun _ ↦ total_macAndSendMsg _

/-- Recalling one event's lock returns. -/
theorem total_abortCommand (tagId event : Uid) : Total (abortCommand tagId event) := by
  apply (total_leaderMapAt event).bind
  intro leader
  apply total_getSelf.bind
  intro self
  exact Total.ite (Total.pure _) ((total_modifySelf _).bind fun _ ↦ Total.pure _)

/-- Following a redirect returns. -/
theorem total_recvRedirect (rsp : CommandRsp) : Total (recvRedirect rsp) := by
  apply (total_peerToEventMapAt _).bind
  intro event
  apply (total_modifySelf _).bind
  intro _
  apply total_getSelf.bind
  intro self
  cases self.missingResp[rsp.source]? with
  | some req => exact total_modifySelf _
  | none => exact Total.pure _

/-- Clearing the request a response answers returns. -/
theorem total_clearMissingResp (rsp : CommandRsp) : Total (clearMissingResp rsp) := by
  apply total_getSelf.bind
  intro self
  cases self.missingResp[rsp.source]? with
  | some req => exact Total.ite (total_modifySelf _) (Total.pure _)
  | none => exact Total.pure _

end

/-! ### Commitment -/

/-- An ABORT entry is committed while a lock is held: with the given position of the lock, each of
the entries finds it set when its turn comes. -/
def abortsHeld (log : List Entry) : Int → List Entry → Bool
  | _, [] => true
  | locked, entry :: entries =>
    if entry.tag.type = .abort then
      locked != -1 && abortsHeld log
        (if log[locked.toNat]?.any fun l ↦ uidsEqual entry.event l.event then -1 else locked)
        entries
    else abortsHeld log locked entries

/-- Without an ABORT among the entries no lock need be held. -/
theorem abortsHeld_of_forall {log : List Entry} {locked : Int} {entries : List Entry}
    (h : ∀ e ∈ entries, e.tag.type ≠ .abort) : abortsHeld log locked entries = true := by
  induction entries with
  | nil => rfl
  | cons entry entries ih =>
    unfold abortsHeld
    rw [if_neg (h entry List.mem_cons_self)]
    exact ih fun e he ↦ h e (List.mem_cons_of_mem _ he)

/-- What the reads of a call rely on. -/
structure Peer.InLog (p : Peer) : Prop where
  commit : p.commitIndex < p.log.length
  indexed : ∀ e ∈ p.log, e.index < p.log.length
  alone : p.clusterSize = 1 → ∀ e ∈ p.log, e.tag.type ≠ .abort
  locked : p.LockInLog

namespace Peer.InLog

variable {p q : Peer}

/-- The reads stay in a log that stays, unless the lock position leaves it. -/
theorem keep (h : p.InLog) (node : q.node = p.node) (locked : p.LockInLog → q.LockInLog) :
    q.InLog where
  commit := by
    rw [show q.commitIndex = p.commitIndex from congrArg Node.commitIndex node,
      show q.log = p.log from congrArg Node.log node]
    exact h.commit
  indexed := by
    rw [show q.log = p.log from congrArg Node.log node]
    exact h.indexed
  alone := by
    rw [show q.clusterSize = p.clusterSize from congrArg Node.clusterSize node,
      show q.log = p.log from congrArg Node.log node]
    exact h.alone
  locked := locked h.locked

/-- A change beside the log and within the tenure. -/
theorem aside {s t : EnclaveState} (h : s.self.InLog) (aside : Aside s t) (tenure : Tenure s t) :
    t.self.InLog := h.keep aside.node tenure.locked

/-- A log that holds the commit index has an entry. -/
theorem nonempty (h : p.InLog) : p.log ≠ [] :=
  List.ne_nil_of_length_pos (Nat.zero_lt_of_lt h.commit)

/-- A lock position that is set can be read. -/
theorem exists_locked (h : p.InLog) (held : p.lockedEntryIndex ≠ -1) :
    ∃ e, p.entryAtInt p.lockedEntryIndex = .ok e := by
  obtain hunset | ⟨-, pos, hlt⟩ := h.locked
  · exact absurd hunset held
  · exact Peer.exists_entryAtInt pos hlt

end Peer.InLog

section
variable {o : Oracle} {s : EnclaveState}

/-- What follows on reading `self` need return on the peer only. -/
theorem returns_bind_getSelf {α : Type} {g : Peer → Ecall α} (h : Returns (g s.self) s) :
    Returns (getSelf >>= g) s := h

/-- What follows an assignment need return on the peer it makes only. -/
theorem returns_bind_modifySelf {α : Type} {f : Peer → Peer} {g : PUnit → Ecall α}
    (h : ∀ t, t = { s with self := f s.self } → Returns (g ⟨⟩) t) :
    Returns (modifySelf f >>= g) s := h _ rfl

/-- The loop over the newly committed entries; the position of the lock is read for an ABORT. -/
theorem returns_commitEntries (round : Nat) {entries : List Entry}
    (locked : s.self.LockInLog ∨ ∀ e ∈ entries, e.tag.type ≠ .abort)
    (held : abortsHeld s.self.log s.self.lockedEntryIndex entries = true) :
    Returns (commitEntries o round entries) s := by
  induction entries generalizing round s with
  | nil => exact Returns.pure _
  | cons entry entries ih =>
    have next {t : EnclaveState} (log : t.self.log = s.self.log)
        (index : t.self.lockedEntryIndex = s.self.lockedEntryIndex)
        (role : t.self.role = s.self.role) (other : entry.tag.type ≠ .abort) (round : Nat) :
        Returns (commitEntries o round entries) t := by
      unfold abortsHeld at held
      rw [if_neg other] at held
      apply ih
      · refine locked.imp (fun h ↦ ?_) fun h e he ↦ h e (List.mem_cons_of_mem _ he)
        unfold Peer.LockInLog
        rwa [log, index, role]
      · rwa [log, index]
    unfold commitEntries
    apply Returns.ite
    · intro hcheck
      apply returns_bind_modifySelf
      intro t ht
      exact next (by rw [ht]) (by rw [ht]) (by rw [ht]) (by simp [hcheck]) _
    · intro _
      apply Returns.when fun t ↦ t.self.log = s.self.log ∧
        t.self.lockedEntryIndex = s.self.lockedEntryIndex ∧ t.self.role = s.self.role
      · exact fun _ ↦ total_modifySelf _ s
      · exact fun _ ↦ wp_modifySelf.mpr ⟨rfl, rfl, rfl⟩
      · exact fun _ ↦ ⟨rfl, rfl, rfl⟩
      · rintro t ⟨log, index, role⟩
        apply returns_bind_getSelf
        apply Returns.ite
        · intro hown
          apply Returns.bind ((total_getSelf.bind fun _ ↦ total_sendCommands _ _) t)
          rw [wp_bind, wp_getSelf]
          refine wp_mono (sendCommands_spec _ _ t) ?_
          rintro _ u ⟨_, ms, ⟨leaders, requests, rfl⟩, hu, -⟩
          have other : entry.tag.type ≠ .abort := by
            intro habort
            simp [habort] at hown
          exact next (by rw [hu]; exact log) (by rw [hu]; exact index) (by rw [hu]; exact role)
            other _
        · intro _
          have collect {u : EnclaveState} (rsp : CommandRsp)
              (hu : Returns (commitEntries o (round + 1) entries) u) : Returns (do
                let rsps ← commitEntries o (round + 1) entries
                return rsp :: rsps) u := hu.bind_total fun _ ↦ Total.pure _
          apply Returns.ite
          · intro habort
            unfold abortsHeld at held
            rw [if_pos habort, Bool.and_eq_true] at held
            obtain ⟨set, held⟩ := held
            have hlocked : t.self.LockInLog := by
              unfold Peer.LockInLog
              rw [log, index, role]
              exact locked.resolve_right fun h ↦ h entry List.mem_cons_self habort
            obtain hunset | ⟨leads, pos, hlt⟩ := hlocked
            · rw [← index, hunset] at set
              cases set
            obtain ⟨l, hl⟩ := Peer.exists_entryAtInt pos hlt
            obtain ⟨-, hat⟩ := entryAtInt_ok hl
            rw [← log, ← index, hat] at held
            apply Returns.bind (Returns.lift ⟨l, hl⟩)
            rw [wp_lift]
            intro l' hl'
            obtain rfl := Except.ok.inj (hl.symm.trans hl')
            rw [Option.any_some] at held
            apply Returns.ite
            · intro hreleased
              rw [if_pos hreleased] at held
              apply returns_bind_modifySelf
              intro u hu
              apply Returns.bind (Returns.pure _)
              rw [wp_pure]
              refine collect _ (ih _ (Or.inl (Or.inl (by rw [hu]))) ?_)
              rwa [hu]
            · intro hkept
              rw [if_neg hkept] at held
              apply Returns.bind (Returns.pure _)
              rw [wp_pure]
              exact collect _ (ih _ (Or.inl (Or.inr ⟨leads, pos, hlt⟩)) held)
          · intro hother
            exact collect _ (next log index role hother _)

/-- A commit returns where the indices lie in the log and each ABORT finds a lock held. -/
theorem returns_updateCommitIndex {newIndex : Nat} (inside : newIndex < s.self.log.length)
    (locked : s.self.role = .leader → s.self.LockInLog ∨
      ∀ e ∈ (s.self.log.take (newIndex + 1)).drop (s.self.commitIndex + 1), e.tag.type ≠ .abort)
    (held : s.self.role = .leader →
      abortsHeld s.self.log s.self.lockedEntryIndex
        ((s.self.log.take (newIndex + 1)).drop (s.self.commitIndex + 1)) = true) :
    Returns (updateCommitIndex o newIndex) s := by
  apply returns_bind_getSelf
  obtain ⟨entries, hentries⟩ := exists_newlyCommitted inside
  apply Returns.bind (Returns.lift ⟨entries, hentries⟩)
  rw [wp_lift]
  intro committed hcommitted
  rw [← newlyCommitted_ok hcommitted] at held locked
  apply Returns.ite
  · intro _
    exact (total_modifySelf _ s).bind_total fun _ ↦ total_modifySelf _
  · intro hleads
    have leads : s.self.role = .leader := by simpa using hleads
    apply (returns_commitEntries 0 (locked leads) (held leads)).bind_total
    intro responses
    exact (total_macAndBroadcastMsgs _).bind fun _ ↦ total_modifySelf _

/-- The entry before the last is there to be sent with it. -/
theorem returns_broadcastLast (two : 2 ≤ s.self.log.length) : Returns broadcastLast s := by
  apply returns_bind_getSelf
  apply Returns.ite
  · intro _
    apply Returns.bind_total (Returns.lift (Peer.exists_entryAtInt (by omega) (by omega)))
    intro prev
    apply Total.bind (Total.lift (Peer.exists_lastEntry (List.ne_nil_of_length_pos (by omega))))
    exact fun last ↦ total_macAndBroadcastMsgs _
  · exact fun _ ↦ Returns.pure _

/-- A peer that is alone commits what it appends, which is no ABORT. -/
theorem returns_appendToLog {e : Entry} (h : s.self.InLog)
    (alone : s.self.clusterSize = 1 → e.tag.type ≠ .abort) : Returns (appendToLog o e) s := by
  apply returns_bind_modifySelf
  intro t ht
  have log : t.self.log = s.self.log ++ [e] := by rw [ht]
  have locked : t.self.LockInLog := by
    rw [ht]
    refine h.locked.imp_right fun ⟨leads, pos, hlt⟩ ↦ ⟨leads, pos, ?_⟩
    rw [List.length_append]
    exact Nat.lt_add_right _ hlt
  have size : t.self.clusterSize = s.self.clusterSize := by rw [ht]
  have hpos := h.commit
  apply returns_bind_getSelf
  apply Returns.ite
  · intro hone
    rw [size] at hone
    apply returns_updateCommitIndex _ fun _ ↦ Or.inl locked
    · intro _
      apply abortsHeld_of_forall
      intro f hf
      have hf := List.mem_of_mem_take (List.mem_of_mem_drop hf)
      rw [log, List.mem_append, List.mem_singleton] at hf
      obtain hf | rfl := hf
      · exact h.alone hone f hf
      · exact alone hone
    · rw [log, List.length_append]
      omega
  · intro _
    apply Returns.bind_total (returns_broadcastLast _)
    · exact fun _ ↦ total_updateTimeout
    · rw [log, List.length_append, List.length_singleton]
      omega

/-- A heartbeat needs an entry to speak of. -/
theorem returns_heartbeat (nonempty : s.self.log ≠ []) : Returns heartbeat s := by
  apply returns_bind_getSelf
  apply Returns.ite
  · intro _
    apply Returns.bind_total (Returns.lift (Peer.exists_lastEntry nonempty))
    exact fun last ↦ total_macAndBroadcastMsgs _
  · exact fun _ ↦ Returns.pure _

/-- A poll needs an entry to speak of. -/
theorem returns_startPoll (nonempty : s.self.log ≠ []) : Returns startPoll s := by
  apply returns_bind_getSelf
  apply Returns.ite
  · intro _
    apply Returns.bind_total (Returns.lift (Peer.exists_lastEntry nonempty))
    exact fun last ↦ total_macAndBroadcastMsgs _
  · exact fun _ ↦ Returns.pure _

/-- An election needs an entry to speak of. -/
theorem returns_startElection (nonempty : s.self.log ≠ []) : Returns (startElection o) s := by
  apply Returns.bind (total_updateTimeout s)
  refine wp_mono (aside_updateTimeout o s) fun _ t ht ↦ ?_
  apply returns_bind_modifySelf
  intro u hu
  apply returns_bind_modifySelf
  intro v hv
  apply returns_bind_getSelf
  apply Returns.bind_total (Returns.lift (Peer.exists_lastEntry _))
  · exact fun last ↦ total_macAndBroadcastMsgs _
  · rw [hv, hu]
    exact (congrArg Node.log ht.node).trans_ne nonempty

/-- Becoming leader returns where the commit index lies in the log. -/
theorem returns_becomeLeader (commit : s.self.commitIndex < s.self.log.length) :
    Returns (becomeLeader o) s := by
  apply returns_bind_modifySelf
  intro t ht
  apply returns_bind_getSelf
  have hcommit : t.self.commitIndex < t.self.log.length := by
    rw [ht]
    exact commit
  apply Returns.bind_total (Returns.lift (Peer.exists_hasUnresolvedLock hcommit))
  intro found
  have rest : Total (do
      modifySelf fun p ↦
        { p with role := .leader, leaderMap := p.leaderMap.insert p.clusterEvent p.id }
      updateTimeout o) := (total_modifySelf _).bind fun _ ↦ total_updateTimeout
  cases found with
  | some index => exact (total_modifySelf _).bind fun _ ↦ rest
  | none => exact (total_modifySelf _).bind fun _ ↦ rest

/-- Whether the retry appends a checkpoint or not. -/
theorem returns_retryRequests (h : s.self.InLog) : Returns (retryRequests o) s := by
  apply returns_bind_getSelf
  have retry : Along Aside (s.self.missingResp.toList.forM fun r ↦ retryRequest o r.1 r.2) :=
    Along.forM fun r _ ↦ aside_retryRequest o r.1 r.2
  have retry' : Along Tenure (s.self.missingResp.toList.forM fun r ↦ retryRequest o r.1 r.2) :=
    Along.forM fun r _ ↦ walk_tenure.retryRequest r.1 r.2
  apply Returns.bind (Total.forM (fun r _ ↦ total_retryRequest r.1 r.2) s)
  refine wp_mono (wp_and (retry s) (retry' s)) fun _ t ⟨hst, hst'⟩ ↦ ?_
  apply returns_bind_modifySelf
  intro u hu
  have inLog : u.self.InLog := by
    rw [hu]
    exact (h.aside hst hst').keep rfl id
  apply returns_bind_getSelf
  apply Returns.ite
  · intro _
    apply Returns.bind (Returns.lift (Peer.exists_hasUnresolvedLock inLog.commit))
    rw [wp_lift]
    intro found _
    apply Returns.ite
    · intro _
      apply Returns.ite
      · intro _
        apply Returns.bind (total_generateRandomUid u)
        refine wp_mono (wp_and (aside_generateRandomUid o u) (walk_tenure.draw u)) ?_
        rintro uid v ⟨huv, huv'⟩
        apply Returns.bind_total (returns_appendToLog (inLog.aside huv huv') (by simp))
        exact fun _ ↦ total_modifySelf _
      · exact fun _ ↦ Returns.pure _
    · exact fun _ ↦ Returns.pure _
  · exact fun _ ↦ Returns.pure _

/-- An abort in a cluster of several peers commits nothing. -/
theorem returns_abortExecution (tagId : Uid) (h : s.self.InLog)
    (several : s.self.clusterSize ≠ 1) : Returns (abortExecution o tagId) s := by
  apply returns_bind_modifySelf
  intro t ht
  have inLog : t.self.InLog := by
    rw [ht]
    exact h.keep rfl fun _ ↦ Or.inl rfl
  apply returns_bind_getSelf
  apply Returns.bind_total (returns_appendToLog inLog _)
  · intro _
    apply total_getSelf.bind
    intro self
    apply Total.bind (Total.mapM fun event _ ↦ total_abortCommand tagId event)
    exact fun reqs ↦ total_macAndBroadcastMsgs _
  · rw [ht]
    exact fun hone ↦ absurd hone several

end

end TrustedDcr.Enclave
