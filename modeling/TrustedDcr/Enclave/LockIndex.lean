import TrustedDcr.Enclave.Checkpoints
import TrustedDcr.Enclave.Commits
import TrustedDcr.Enclave.Tenure

/-!
# The cached position of a lock

`locked_entry_index` is set by an election, which scans the log from its latest
checkpoint, and unset by an abort and by the commitment of an ABORT of the event at
the position. A leader's other calls keep it, whatever they append and commit.
-/

namespace TrustedDcr.Enclave
open TrustedDcr.Msg TrustedDcr.Dcr TrustedDcr.Theory

/-! ### Releases -/

/-- The event of the entry at the cached position. -/
def lockedEvent (log : List Entry) (locked : Int) : Option Uid :=
  if locked < 0 then none else log[locked.toNat]?.map Entry.event

/-- An ABORT of the event at the cached position is among the entries. -/
def releases (log : List Entry) (locked : Int) (entries : List Entry) : Bool :=
  entries.any fun e ↦ e.tag.type == .abort && lockedEvent log locked == some e.event

/-- The cached position after the leader's loop over the entries. -/
def release (log : List Entry) (locked : Int) (entries : List Entry) : Int :=
  if releases log locked entries then -1 else locked

private theorem lockedEvent_eq_of_isPrefix {log log' : List Entry} {locked : Int}
    (hp : log <+: log')
    (inside : locked.toNat < log.length) : lockedEvent log' locked = lockedEvent log locked := by
  unfold lockedEvent
  rw [getElem?_eq_of_isPrefix hp inside]

/-- Without a position there is nothing to release. -/
theorem releases_unset (log entries : List Entry) : releases log (-1) entries = false := by
  simp [releases, lockedEvent]

private theorem release_append (log : List Entry) (locked : Int) (entries entries' : List Entry) :
    release log locked (entries ++ entries') =
      release log (release log locked entries) entries' := by
  unfold release
  cases first : releases log locked entries with
  | true =>
    have both : releases log locked (entries ++ entries') = true := by
      unfold releases at first ⊢
      rw [List.any_append, first, Bool.true_or]
    simp [both]
  | false =>
    have both : releases log locked (entries ++ entries') = releases log locked entries' := by
      unfold releases at first ⊢
      rw [List.any_append, first, Bool.false_or]
    simp [both]

namespace Peer

variable {p : Peer}

/-- The entry read at the cached position. -/
theorem lockedEvent_of_entryAtInt {e : Entry} (h : p.entryAtInt p.lockedEntryIndex = .ok e) :
    lockedEvent p.log p.lockedEntryIndex = some e.event := by
  obtain ⟨pos, found⟩ := entryAtInt_ok h
  unfold lockedEvent
  rw [if_neg (by omega), found]
  rfl

end Peer

/-! ### Open locks -/

/-- A LOCK is at the position, and no entry up to `c` frees it. -/
def OpenLock (log : List Entry) (c i : Nat) : Prop :=
  ∃ lock ∈ log[i]?, lock.tag.type = .lock ∧
    ∀ e ∈ (log.take (c + 1)).drop (i + 1), e.event = lock.event → e.tag.type = .lock

instance (log : List Entry) (c i : Nat) : Decidable (OpenLock log c i) := by
  unfold OpenLock
  infer_instance

/-- The entries after a position, up to another. -/
theorem mem_section_iff {log : List Entry} {c i : Nat} {e : Entry} :
    e ∈ (log.take (c + 1)).drop (i + 1) ↔ ∃ j, i < j ∧ j ≤ c ∧ log[j]? = some e := by
  rw [List.mem_iff_getElem?]
  simp only [List.getElem?_drop, List.getElem?_take]
  constructor
  · rintro ⟨k, hk⟩
    split at hk
    · exact ⟨i + 1 + k, by omega, by omega, hk⟩
    · exact nomatch hk
  · rintro ⟨j, hij, hjc, hj⟩
    refine ⟨j - (i + 1), ?_⟩
    rw [if_pos (by omega), show i + 1 + (j - (i + 1)) = j by omega]
    exact hj

/-- A LOCK is open where it is not freed. -/
theorem openLock_iff {log : List Entry} {c i : Nat} : OpenLock log c i ↔
    ∃ lock, log[i]? = some lock ∧ lock.tag.type = .lock ∧ ¬ Freed log c i lock := by
  unfold OpenLock Freed
  simp only [Option.mem_def, mem_section_iff]
  constructor
  · rintro ⟨lock, found, type, opened⟩
    refine ⟨lock, found, type, ?_⟩
    rintro ⟨j, e, hij, hj, he, free, event⟩
    exact free (opened e ⟨j, hij, hj, he⟩ event)
  · rintro ⟨lock, found, type, opened⟩
    refine ⟨lock, found, type, ?_⟩
    rintro e ⟨j, hij, hj, he⟩ event
    by_contra free
    exact opened ⟨j, e, hij, hj, he, free, event⟩

/-- A LOCK that is open later was open before. -/
theorem OpenLock.of_isPrefix {log log' : List Entry} {c c' i : Nat} (h : OpenLock log' c' i)
    (hp : log <+: log') (hle : c ≤ c') (inside : i < log.length) : OpenLock log c i := by
  rw [openLock_iff] at h ⊢
  obtain ⟨lock, found, type, opened⟩ := h
  rw [getElem?_eq_of_isPrefix hp inside] at found
  exact ⟨lock, found, type, fun freed ↦ opened (freed.mono hp hle)⟩

namespace Peer

/-- A committed LOCK at the position is not resolved. -/
def Unresolved (p : Peer) (i : Nat) : Prop :=
  i ≤ p.commitIndex ∧ ∃ lock, p.log[i]? = some lock ∧ lock.tag.type = .lock ∧
    p.lockIsResolved i = .ok false

/-- `locked_entry_index` is -1 exactly when no committed LOCK is unresolved, and otherwise the
position of one. -/
def LockAgrees (p : Peer) : Prop :=
  (p.lockedEntryIndex = -1 ↔ ∀ i, ¬ p.Unresolved i) ∧
    (p.lockedEntryIndex ≠ -1 → ∃ i : Nat, p.lockedEntryIndex = i ∧ p.Unresolved i)

variable {p : Peer}

/-- Inside the log the scan for a LOCK has a result. -/
theorem unresolved_iff (inside : p.commitIndex < p.log.length) {i : Nat} :
    p.Unresolved i ↔ i ≤ p.commitIndex ∧ OpenLock p.log p.commitIndex i := by
  unfold Unresolved
  rw [openLock_iff]
  refine and_congr_right fun committed ↦ exists_congr fun lock ↦ and_congr_right fun found ↦
    and_congr_right fun type ↦ ?_
  rw [← p.lockIsResolved_iff_freed found type]
  obtain ⟨resolved, h⟩ := exists_lockIsResolved inside (Nat.lt_of_le_of_lt committed inside)
  rw [h]
  cases resolved <;> simp

end Peer

/-! ### What a leader's calls do to the cached position -/

/-- What the cached position is compared with. -/
structure Hold where
  role : Role
  term : Nat
  log : List Entry
  commitIndex : Nat
  lockedEntryIndex : Int

/-- The hold of a peer. -/
def Peer.hold (p : Peer) : Hold := ⟨p.role, p.term, p.log, p.commitIndex, p.lockedEntryIndex⟩

namespace Hold

variable {u v w : Hold}

/-- The commit index and the cached position are in the log. -/
structure Placed (v : Hold) : Prop where
  inside : v.commitIndex < v.log.length
  locked : v.lockedEntryIndex = -1 ∨ v.lockedEntryIndex.toNat < v.log.length

/-- The cached position is unset exactly when no LOCK is open, and otherwise at one. -/
structure Agrees (v : Hold) : Prop where
  unset : v.lockedEntryIndex = -1 → ∀ i ≤ v.commitIndex, ¬ OpenLock v.log v.commitIndex i
  points : v.lockedEntryIndex ≠ -1 → ∃ i : Nat, v.lockedEntryIndex = i ∧ i ≤ v.commitIndex ∧
    OpenLock v.log v.commitIndex i

/-- The entries that are newly committed. -/
def newly (v w : Hold) : List Entry := (w.log.take (w.commitIndex + 1)).drop (v.commitIndex + 1)

/-- The log is extended, more of it committed, and the cached position kept unless released. -/
structure Extends (v w : Hold) : Prop where
  inside : w.commitIndex < w.log.length
  log : v.log <+: w.log
  commitIndex : v.commitIndex ≤ w.commitIndex
  locked : w.lockedEntryIndex = release w.log v.lockedEntryIndex (v.newly w)

/-- A cached position that agrees lies in the log. -/
theorem Agrees.placed (agrees : v.Agrees) (inside : v.commitIndex < v.log.length) : v.Placed := by
  refine ⟨inside, ?_⟩
  by_cases unset : v.lockedEntryIndex = -1
  · exact Or.inl unset
  · obtain ⟨i, hi, committed, -⟩ := agrees.points unset
    right
    omega

/-- Nothing is newly committed with the same commit index. -/
theorem newly_of_eq (h : w.commitIndex = v.commitIndex) : v.newly w = [] := by
  unfold newly
  rw [h]
  exact List.drop_eq_nil_of_le (List.length_take_le _ _)

private theorem Extends.of_append {e : List Entry} (inside : v.commitIndex < v.log.length) :
    v.Extends { v with log := v.log ++ e } := by
  refine ⟨?_, List.prefix_append _ _, Nat.le_refl _, ?_⟩
  · dsimp only
    rw [List.length_append]
    omega
  · have none : v.newly { v with log := v.log ++ e } = [] := newly_of_eq rfl
    rw [none]
    rfl

private theorem Extends.refl (inside : v.commitIndex < v.log.length) : v.Extends v := by
  have same := Extends.of_append (v := v) (e := []) inside
  rwa [List.append_nil] at same

/-- The position stays in the log. -/
theorem Extends.placed (h : v.Extends w) (placed : v.Placed) : w.Placed := by
  refine ⟨h.inside, ?_⟩
  rw [h.locked]
  unfold release
  split
  · exact Or.inl rfl
  · exact placed.locked.imp_right fun hlt ↦ Nat.lt_of_lt_of_le hlt h.log.length_le

/-- The event at the position is the same in a longer log. -/
theorem Placed.lockedEvent {log : List Entry} (placed : v.Placed) (hp : v.log <+: log) :
    lockedEvent log v.lockedEntryIndex = Enclave.lockedEvent v.log v.lockedEntryIndex := by
  rcases placed.locked with unset | inside
  · rw [unset]
    rfl
  · exact lockedEvent_eq_of_isPrefix hp inside

/-- So are its releases. -/
theorem Placed.release {log : List Entry} (placed : v.Placed) (hp : v.log <+: log)
    (entries : List Entry) :
    release log v.lockedEntryIndex entries = Enclave.release v.log v.lockedEntryIndex entries := by
  unfold Enclave.release releases
  rw [placed.lockedEvent hp]

/-- Extending twice is extending, where the position was in the log. -/
protected theorem Extends.trans (placed : u.Placed) (uv : u.Extends v) (vw : v.Extends w) :
    u.Extends w := by
  refine ⟨vw.inside, uv.log.trans vw.log, uv.commitIndex.trans vw.commitIndex, ?_⟩
  have entries : u.newly w = u.newly v ++ v.newly w := by
    unfold newly
    rw [← section_append w.log uv.commitIndex vw.commitIndex,
      take_eq_of_isPrefix vw.log (show v.commitIndex + 1 ≤ v.log.length from uv.inside)]
  rw [entries, release_append, vw.locked, uv.locked, placed.release (uv.log.trans vw.log),
    placed.release uv.log]

end Hold

/-- What may be committed up to `n` with the cached position in step. Where it is unset, every LOCK
that is committed is freed; where an ABORT releases it, every LOCK up to there is; and otherwise
nothing frees the event at the position. -/
def KeepsLock (log : List Entry) (locked : Int) (c n : Nat) : Prop :=
  if locked = -1 then ∀ i < n + 1, c < i → ¬ OpenLock log n i
  else if releases log locked ((log.take (n + 1)).drop (c + 1)) then
    ∀ i < n + 1, ¬ OpenLock log n i
  else ∀ e ∈ (log.take (n + 1)).drop (c + 1),
    lockedEvent log locked = some e.event → e.tag.type = .lock

instance (log : List Entry) (locked : Int) (c n : Nat) : Decidable (KeepsLock log locked c n) := by
  unfold KeepsLock
  infer_instance

/-- The cached position agrees with the longer log exactly when what is committed keeps it so. -/
theorem Hold.Extends.agrees_iff {v w : Hold} (h : v.Extends w)
    (inside : v.commitIndex < v.log.length) (agrees : v.Agrees) :
    w.Agrees ↔ KeepsLock w.log v.lockedEntryIndex v.commitIndex w.commitIndex := by
  have placed := agrees.placed inside
  have hlocked := h.locked
  unfold KeepsLock
  unfold release Hold.newly at hlocked
  by_cases unset : v.lockedEntryIndex = -1
  · rw [if_pos unset]
    rw [unset, releases_unset, if_neg (by simp)] at hlocked
    constructor
    · intro agrees' i hi _
      exact agrees'.unset hlocked i (by omega)
    · intro keeps
      refine ⟨fun _ i hi opened ↦ ?_, fun set ↦ absurd hlocked set⟩
      by_cases committed : i ≤ v.commitIndex
      · exact agrees.unset unset i committed
          (opened.of_isPrefix h.log h.commitIndex (by omega))
      · exact keeps i (by omega) (by omega) opened
  · rw [if_neg unset]
    by_cases released : releases w.log v.lockedEntryIndex
        ((w.log.take (w.commitIndex + 1)).drop (v.commitIndex + 1)) = true
    · rw [if_pos released]
      rw [if_pos released] at hlocked
      constructor
      · intro agrees' i hi
        exact agrees'.unset hlocked i (by omega)
      · exact fun keeps ↦ ⟨fun _ i hi ↦ keeps i (by omega), fun set ↦ absurd hlocked set⟩
    · rw [if_neg released]
      rw [if_neg released] at hlocked
      obtain ⟨i, hi, committed, lock, found, type, opened⟩ := agrees.points unset
      have event : lockedEvent w.log v.lockedEntryIndex = some lock.event := by
        have found : v.log[i]? = some lock := found
        rw [placed.lockedEvent h.log, hi]
        unfold lockedEvent
        rw [if_neg (by omega), Int.toNat_natCast, found]
        rfl
      have found : w.log[i]? = some lock := getElem?_of_isPrefix h.log found
      rw [event]
      simp only [mem_section_iff] at opened ⊢
      constructor
      · rintro agrees' e ⟨j, hj, hjn, he⟩ same
        obtain ⟨i', hi', -, lock', found', -, opened'⟩ := agrees'.points (hlocked ▸ unset)
        obtain rfl : i' = i := by omega
        obtain rfl := Option.some.inj (found.symm.trans found')
        simp only [mem_section_iff] at opened'
        exact opened' e ⟨j, by omega, hjn, he⟩ (Option.some.inj same).symm
      · intro keeps
        refine ⟨fun h ↦ absurd (hlocked ▸ h) unset, fun _ ↦
          ⟨i, hlocked.trans hi, committed.trans h.commitIndex, lock, found, type, ?_⟩⟩
        simp only [mem_section_iff]
        rintro e ⟨j, hij, hjn, he⟩ same
        by_cases old : j ≤ v.commitIndex
        · rw [getElem?_eq_of_isPrefix h.log (by omega)] at he
          exact opened e ⟨j, hij, old, he⟩ same
        · exact keeps e ⟨j, by omega, hjn, he⟩ (congrArg some same.symm)

namespace Peer

variable {p : Peer}

/-- The cached position of a peer agrees exactly if that of its hold does. -/
theorem lockAgrees_iff (inside : p.commitIndex < p.log.length) :
    p.LockAgrees ↔ p.hold.Agrees := by
  unfold LockAgrees
  simp only [p.unresolved_iff inside, not_and]
  constructor
  · rintro ⟨unset, points⟩
    exact ⟨fun h i hi ↦ unset.mp h i hi, points⟩
  · rintro ⟨unset, points⟩
    refine ⟨⟨unset, fun none ↦ ?_⟩, points⟩
    by_contra set
    obtain ⟨i, -, hi, opened⟩ := points set
    exact none i hi opened

end Peer

/-! ### Calls -/

/-- A peer that leads afterwards has led before, and has extended what it holds. -/
def Holds (s t : EnclaveState) : Prop :=
  t.self.role = .leader → s.self.role = .leader ∧ (s.self.hold.Placed →
    s.self.hold.Extends t.self.hold)

namespace Holds

variable {s t u : EnclaveState}

/-- Where a leader's hold stays the same. -/
theorem of_led (h : Led Peer.hold s t) : Holds s t := by
  intro leads
  obtain ⟨led, same⟩ := h leads
  refine ⟨led, fun placed ↦ ?_⟩
  rw [same]
  exact .refl placed.inside

/-- Two calls that extend the hold do so in a row. -/
protected theorem trans (st : Holds s t) (tu : Holds t u) : Holds s u := by
  intro leads
  obtain ⟨leads, after⟩ := tu leads
  obtain ⟨leads, before⟩ := st leads
  exact ⟨leads, fun placed ↦
    (before placed).trans placed (after ((before placed).placed placed))⟩

instance : Std.Refl Holds := ⟨fun _ ↦ of_led (Std.Refl.refl _)⟩
instance : IsTrans EnclaveState Holds := ⟨fun _ _ _ ↦ Holds.trans⟩

end Holds

section
variable {o : Oracle}

/-- The hold has nothing to do with a leader's bookkeeping. -/
theorem beside_hold : Beside Peer.hold where
  leaderMap _ _ := rfl
  peerToEventMap _ _ := rfl
  timers _ _ _ := rfl
  pollVotes _ _ := rfl
  endorsement _ _ := rfl
  workflow _ _ := rfl
  missingResp _ _ := rfl
  lockedEvents _ _ := rfl
  indices _ _ := rfl
  electionVotes _ _ := rfl
  role h := congrArg Hold.role h
  term h := congrArg Hold.term h

/-- The leader's loop releases the lock with an ABORT of its event. -/
theorem holds_commitEntries (round : Nat) (entries : List Entry) (s : EnclaveState) :
    wp (commitEntries o round entries) (fun _ t ↦ t.self.hold = { s.self.hold with
      lockedEntryIndex := release s.self.log s.self.lockedEntryIndex entries }) s := by
  induction entries generalizing round s with
  | nil => exact wp_pure.mpr rfl
  | cons entry entries ih =>
    have one : wp (commitEntry o round entry) (fun _ t ↦ t.self.hold = { s.self.hold with
        lockedEntryIndex := release s.self.log s.self.lockedEntryIndex [entry] }) s := by
      have other (type : entry.tag.type ≠ .abort) :
          release s.self.log s.self.lockedEntryIndex [entry] = s.self.lockedEntryIndex := by
        simp [release, releases, type]
      refine wp_commitEntry ?_ ?_ ?_ ?_ ?_
      · intro type
        rw [other (by simp [type])]
        rfl
      · intro type _
        rw [other (by simp [type])]
        exact (along_getSelf.bind fun _ ↦ beside_hold.sendCommands _ _) s
      · intro type _
        rw [other (by simp [type])]
        rfl
      · intro type
        rw [other (by simp [type])]
        rfl
      · intro type locked hlocked
        have event := Peer.lockedEvent_of_entryAtInt hlocked
        have released : release s.self.log s.self.lockedEntryIndex [entry] =
            if entry.event = locked.event then -1 else s.self.lockedEntryIndex := by
          simp [release, releases, type, event, @eq_comm _ locked.event]
        rw [released]
        rfl
    rw [wp_commitEntries_cons]
    refine wp_mono one fun _ t ht ↦ wp_mono (ih _ t) fun _ u hu ↦ ?_
    have log : t.self.log = s.self.log := congrArg Hold.log ht
    have locked : t.self.lockedEntryIndex = release s.self.log s.self.lockedEntryIndex [entry] :=
      congrArg Hold.lockedEntryIndex ht
    rw [hu, ht, log, locked, ← release_append]
    rfl

/-- A leader's commitment. -/
theorem holds_updateCommitIndex {s : EnclaveState} {index : Nat} {e : Entry}
    (leads : s.self.role = .leader) (found : s.self.log[index]? = some e)
    (ahead : s.self.commitIndex < index) :
    wp (updateCommitIndex o index) (fun _ t ↦ Holds s t) s := by
  unfold updateCommitIndex
  rw [wp_bind, wp_getSelf, wp_bind, wp_lift]
  intro committed hcommitted
  rw [newlyCommitted_ok hcommitted, if_neg (by simp [leads]), wp_bind]
  refine wp_mono (holds_commitEntries 0 _ s) fun responses t ht ↦ ?_
  rw [wp_bind, wp_macAndBroadcastMsgs, wp_modifySelf]
  have log : t.self.log = s.self.log := congrArg Hold.log ht
  refine fun _ ↦ ⟨leads, fun placed ↦ ⟨?_, ?_, Nat.le_of_lt ahead, ?_⟩⟩
  · change index < t.self.log.length
    rw [log]
    exact (List.getElem?_eq_some_iff.mp found).1
  · change s.self.log <+: t.self.log
    rw [log]
  · change t.self.lockedEntryIndex =
      release t.self.log s.self.lockedEntryIndex ((t.self.log.take (index + 1)).drop _)
    rw [log]
    exact congrArg Hold.lockedEntryIndex ht

/-- With other members to ask, an entry is appended and not yet committed. -/
theorem hold_appendToLog {s : EnclaveState} {entry : Entry} (several : s.self.clusterSize ≠ 1) :
    wp (appendToLog o entry) (fun _ t ↦
      t.self.hold = { s.self.hold with log := s.self.log ++ [entry] }) s := by
  unfold appendToLog
  refine wp_bind_modifySelf fun t ht ↦ ?_
  have hold : t.self.hold = { s.self.hold with log := s.self.log ++ [entry] } := by
    rw [ht]
    rfl
  rw [wp_bind, wp_getSelf, if_neg (by rw [ht]; exact several)]
  have same : Along (Same Peer.hold) (do
      broadcastLast
      updateTimeout o) := (same_broadcastLast _).bind fun _ ↦ beside_hold.updateTimeout
  exact wp_mono (same t) fun _ _ hu ↦ Eq.trans hu hold

private theorem holds_appendToLog (entry : Entry) : Along Holds (appendToLog o entry) := by
  intro s
  by_cases leads : s.self.role = .leader
  · by_cases inside : s.self.commitIndex < s.self.log.length
    · have appended {t : EnclaveState}
          (hold : t.self.hold = { s.self.hold with log := s.self.log ++ [entry] }) :
          Holds s t := by
        refine fun _ ↦ ⟨leads, fun _ ↦ ?_⟩
        rw [hold]
        exact .of_append inside
      by_cases alone : s.self.clusterSize = 1
      · unfold appendToLog
        refine wp_bind_modifySelf fun t ht ↦ ?_
        have hold : t.self.hold = { s.self.hold with log := s.self.log ++ [entry] } := by
          rw [ht]
          rfl
        have hlog : t.self.log = s.self.log ++ [entry] := congrArg Hold.log hold
        have hcommit : t.self.commitIndex = s.self.commitIndex := congrArg Hold.commitIndex hold
        have last : t.self.log.length - 1 = s.self.log.length := by simp [hlog]
        have found : t.self.log[t.self.log.length - 1]? = some entry := by
          rw [last, hlog]
          exact List.getElem?_concat_length
        rw [wp_bind, wp_getSelf, if_pos (by rw [ht]; exact alone)]
        have committed := holds_updateCommitIndex (o := o)
          ((congrArg Hold.role hold).trans leads) found (by omega)
        exact wp_mono committed fun _ _ htu ↦ (appended hold).trans htu
      · exact wp_mono (hold_appendToLog alone) fun _ _ ↦ appended
    · exact fun _ _ _ _ ↦ ⟨leads, fun placed ↦ absurd placed.inside inside⟩
  · refine wp_mono (walk_tenure.appendToLog entry s) fun _ t tenure leads' ↦ ?_
    exact absurd (tenure.leads leads').1 leads

/-- The hold is extended wherever an entry is appended. -/
theorem alongCalls_holds : AlongCalls o Peer.hold Holds where
  beside := beside_hold
  led := Holds.of_led
  append _ _ := holds_appendToLog _ _

/-- An ABORT response starts an abort. -/
def Peer.abortsOn (p : Peer) (rsp : CommandRsp) : Prop :=
  p.Handles true rsp ∧ rsp.tag.type = .abort ∧ p.startsAbort rsp.source = true

instance (p : Peer) (rsp : CommandRsp) : Decidable (p.abortsOn rsp) := by
  unfold Peer.abortsOn
  infer_instance

/-- Any other response to a command keeps the cached position. -/
theorem holds_recvCommandRsp {rsp : CommandRsp} {s : EnclaveState} (other : ¬ s.self.abortsOn rsp) :
    wp (recvCommandRsp o true rsp) (fun _ t ↦ Holds s t) s := by
  apply alongCalls_holds.recvCommandRsp
  intro handles type t _ hself
  have idle : t.self.startsAbort rsp.source = false := by
    rw [hself, Bool.eq_false_iff]
    exact fun starts ↦ other ⟨handles, type, starts⟩
  refine wp_mono (recvAbortRsp_of_not_starts idle) ?_
  rintro _ _ ⟨⟨leaders, rfl⟩, -⟩
  exact alongCalls_holds (o := o).same rfl

/-- Committing on an append response extends the hold. -/
theorem holds_recvAppendRsp (valid : Bool) (rsp : AppendRsp) :
    Along Holds (recvAppendRsp o valid rsp) := by
  intro s
  apply alongCalls_holds.recvAppendRsp
  exact fun leads found _ ahead ↦ holds_updateCommitIndex leads found ahead

/-- A timeout, its checkpoint included, extends the hold. -/
theorem holds_setTime (ticks : UInt64) : Along Holds (setTime o ticks) :=
  beside_hold.along_setTime (fun _ _ ↦ rfl) (fun _ _ ↦ rfl) (fun _ _ ↦ rfl) Holds.of_led
    (fun _ ↦ holds_appendToLog _) ticks

/-- The position at which the scan of the winner of an election finds a LOCK. -/
def foundIndex : Option Nat → Int
  | some index => index
  | none => -1

/-- A new leader has scanned the log from its latest checkpoint. -/
def Takes (s t : EnclaveState) : Prop :=
  ∃ found, s.self.elected.hasUnresolvedLock = .ok found ∧
    t.self.hold = { s.self.hold with role := .leader, lockedEntryIndex := foundIndex found }

/-- A new leader's hold is what its scan has found. -/
theorem becomeLeader_hold (s : EnclaveState) :
    wp (becomeLeader o) (fun _ t ↦ Takes s t) s := by
  unfold becomeLeader
  refine wp_bind_modifySelf fun t ht ↦ ?_
  have hself : t.self = s.self.elected := by
    rw [ht]
    rfl
  rw [wp_bind, wp_getSelf, wp_bind, wp_lift]
  intro found hfound
  rw [hself] at hfound
  have lead {u : EnclaveState}
      (hu : u.self.hold = { s.self.hold with lockedEntryIndex := foundIndex found }) : wp (do
        modifySelf fun p ↦
          { p with role := .leader, leaderMap := p.leaderMap.insert p.clusterEvent p.id }
        updateTimeout o) (fun _ v ↦ Takes s v) u := by
    refine wp_bind_modifySelf fun v hv ↦ wp_mono (beside_hold.updateTimeout v) fun _ w hw ↦ ?_
    refine ⟨found, hfound, Eq.trans hw ?_⟩
    rw [hv]
    exact congrArg (fun h : Hold ↦ { h with role := .leader }) hu
  have start : t.self.hold = s.self.hold := by
    rw [hself]
    rfl
  cases found with
  | some index =>
    refine wp_bind_modifySelf fun u hu ↦ lead ?_
    rw [hu]
    exact congrArg (fun h : Hold ↦ { h with lockedEntryIndex := index }) start
  | none =>
    refine wp_bind_modifySelf fun u hu ↦ lead ?_
    rw [hu]
    exact congrArg (fun h : Hold ↦ { h with lockedEntryIndex := -1 }) start

/-- Whoever leads after a vote has led before, or the vote has elected it. -/
theorem holds_recvElectionRsp (valid : Bool) (rsp : ElectionRsp) (s : EnclaveState) :
    wp (recvElectionRsp o valid rsp)
      (fun _ t ↦ Holds s t ∨ s.self.wins rsp = true ∧ Takes s t) s := by
  refine wp_mono (led_recvElectionRsp beside_hold.electionVotes valid rsp s) ?_
  rintro _ t (led | ⟨elects, ms, elected⟩)
  · exact Or.inl (Holds.of_led led)
  · obtain ⟨found, scanned, hold⟩ := becomeLeader_hold _ _ t elected
    exact Or.inr ⟨elects, found, scanned, hold⟩

/-- The scan finds an open LOCK from the latest checkpoint on where there is any. -/
def Peer.FindsLocks (p : Peer) : Prop :=
  ∀ i < p.commitIndex + 1, OpenLock p.log p.commitIndex i →
    ∃ k < p.commitIndex + 1, p.findLatestCheckpoint ≤ k ∧ OpenLock p.log p.commitIndex k

instance (p : Peer) : Decidable p.FindsLocks := by
  unfold Peer.FindsLocks
  infer_instance

/-- The scan of a new leader has read the committed part of its log. -/
theorem Takes.inside {s t : EnclaveState} (h : Takes s t) :
    s.self.commitIndex < s.self.log.length := by
  obtain ⟨found, scanned, -⟩ := h
  apply Peer.inside_of_hasUnresolvedLock (p := s.self.elected) scanned
  intro ahead
  rcases Peer.latestCheckpointBelow_spec s.self.log s.self.log.length with zero | ⟨e, he, -⟩
  · have ahead : s.self.commitIndex < Peer.latestCheckpointBelow s.self.log s.self.log.length :=
      ahead
    omega
  · exact (List.getElem?_eq_some_iff.mp he).1

/-- Its cached position agrees with the log exactly when the scan has missed no open LOCK. -/
theorem Takes.agrees_iff {s t : EnclaveState} (h : Takes s t) :
    t.self.hold.Agrees ↔ s.self.FindsLocks := by
  have inside : s.self.elected.commitIndex < s.self.elected.log.length := h.inside
  obtain ⟨found, scanned, hold⟩ := h
  rw [hold]
  cases found with
  | none =>
    constructor
    · intro agrees i hi opened
      exact absurd opened (agrees.unset rfl i (Nat.le_of_lt_succ hi))
    · intro finds
      refine ⟨fun _ i (hi : i ≤ s.self.commitIndex) opened ↦ ?_, fun set ↦ absurd rfl set⟩
      obtain ⟨k, hk, reached, opened⟩ := finds i (by omega) opened
      obtain ⟨lock, hlock, type, unfreed⟩ := openLock_iff.mp opened
      exact unfreed (Peer.freed_of_hasUnresolvedLock scanned reached (Nat.le_of_lt_succ hk)
        hlock type)
  | some k =>
    obtain ⟨reached, committed, lock, hlock, type, unresolved⟩ :=
      Peer.unresolved_of_hasUnresolvedLock scanned
    have opened : OpenLock s.self.log s.self.commitIndex k :=
      ((s.self.elected.unresolved_iff inside).mp ⟨committed, lock, hlock, type, unresolved⟩).2
    have committed : k ≤ s.self.commitIndex := committed
    refine iff_of_true ⟨fun unset ↦ ?_, fun _ ↦ ⟨k, rfl, committed, opened⟩⟩
      fun _ _ _ ↦ ⟨k, by omega, reached, opened⟩
    have unset : (k : Int) = -1 := unset
    omega

end

end TrustedDcr.Enclave
