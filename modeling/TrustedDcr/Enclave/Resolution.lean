import TrustedDcr.Enclave.Outstanding
import TrustedDcr.Enclave.Returns

/-!
# When a lock counts as resolved

`lock_is_resolved` and `lock_resolve_is_committed` scan the committed entries
after a LOCK for one of its event, the first for one that is no LOCK, the second
for any. A late response to a resolved LOCK is answered from the second scan,
which keeps the entry that it found to itself.
-/

namespace TrustedDcr.Enclave
open TrustedDcr.Msg TrustedDcr.Theory

namespace Peer

/-- A committed entry after the position satisfies the property. -/
def CommittedAfter (p : Peer) (i : Nat) (P : Entry → Prop) : Prop :=
  ∃ j e, i < j ∧ j ≤ p.commitIndex ∧ p.log[j]? = some e ∧ P e

/-- What a scan with a test of the entries alone answers. -/
theorem scan_isSome_iff (p : Peer) (test : Entry → Bool) (start count : Nat) :
    (do
      let found ← firstIndex (fun i ↦ do
        let e ← p.entryAt i
        return test e) (List.range' start count)
      return found.isSome : Except Fault Bool) = .ok true ↔
    ∃ j e, start ≤ j ∧ j < start + count ∧ p.log[j]? = some e ∧ test e = true := by
  induction count generalizing start with
  | zero =>
    constructor
    · intro h
      cases h
    · rintro ⟨j, -, h1, h2, -⟩
      omega
  | succ count ih =>
    rw [List.range'_succ]
    unfold firstIndex
    cases hs : p.entryAt start with
    | error =>
      constructor
      · intro h
        cases h
      · rintro ⟨j, e, h1, -, hj, -⟩
        have hlt := (List.getElem?_eq_some_iff.mp hj).1
        unfold entryAt at hs
        rw [List.getElem?_eq_getElem (by omega)] at hs
        cases hs
    | ok e =>
      have he := entryAt_ok hs
      change (do
        let found ← (if test e then Except.ok (some start) else _)
        return found.isSome : Except Fault Bool) = _ ↔ _
      cases ht : test e with
      | true => exact ⟨fun _ ↦ ⟨start, e, by omega, by omega, he, ht⟩, fun _ ↦ rfl⟩
      | false =>
        refine (ih (start + 1)).trans ?_
        constructor
        · rintro ⟨j, f, h1, h2, hj⟩
          exact ⟨j, f, by omega, by omega, hj⟩
        · rintro ⟨j, f, h1, h2, hj, hf⟩
          refine ⟨j, f, ?_, by omega, hj, hf⟩
          rcases Nat.lt_or_eq_of_le h1 with h | rfl
          · exact h
          · rw [he] at hj
            cases hj
            rw [ht] at hf
            exact Bool.noConfusion hf

section
variable {p : Peer} {i : Nat} {lock : Entry} (found : p.log[i]? = some lock)
  (type : lock.tag.type = .lock)

include found type

/-- The scan after a LOCK looks for a committed entry that passes the test. -/
theorem scanAfter_iff (other : Bool) (test : Entry → Entry → Bool) :
    p.scanAfter i other test = .ok true ↔ p.CommittedAfter i fun e ↦ test lock e = true := by
  have scan := p.scan_isSome_iff (test lock) (i + 1) (p.commitIndex - i)
  unfold scanAfter entryAt
  rw [found]
  change (if lock.tag.type ≠ .lock then _ else _) = _ ↔ _
  rw [if_neg (by simp [type])]
  refine scan.trans ?_
  unfold CommittedAfter
  constructor
  · rintro ⟨j, e, h1, h2, hj, he⟩
    exact ⟨j, e, by omega, by omega, hj, he⟩
  · rintro ⟨j, e, h1, h2, hj, he⟩
    exact ⟨j, e, by omega, by omega, hj, he⟩

/-- A LOCK is resolved by a committed entry of its event that is no LOCK. -/
theorem lockIsResolved_iff : p.lockIsResolved i = .ok true ↔
    p.CommittedAfter i fun e ↦ e.tag.type ≠ .lock ∧ e.event = lock.event := by
  rw [lockIsResolved_eq_scanAfter, scanAfter_iff found type]
  simp only [ne_eq, decide_not, Bool.and_eq_true, Bool.not_eq_eq_eq_not, Bool.not_true,
    decide_eq_false_iff_not, uidsEqual_iff, @eq_comm _ lock.event]

/-- The resolution of a LOCK counts as committed with any committed entry of its event. -/
theorem lockResolveIsCommitted_iff : p.lockResolveIsCommitted i = .ok true ↔
    p.CommittedAfter i fun e ↦ e.event = lock.event := by
  rw [lockResolveIsCommitted_eq_scanAfter, scanAfter_iff found type]
  simp only [uidsEqual_iff]

end

/-- The entry is the first committed EXEC or ABORT after the position that has the event of the
lock there. -/
def FirstResolution (p : Peer) (i : Nat) (lock e : Entry) : Prop :=
  ∃ j, i < j ∧ j ≤ p.commitIndex ∧ p.log[j]? = some e ∧ e.event = lock.event ∧
    (e.tag.type = .exec ∨ e.tag.type = .abort) ∧
    ∀ k f, i < k → k < j → p.log[k]? = some f → f.event = lock.event →
      f.tag.type ≠ .exec ∧ f.tag.type ≠ .abort

end Peer

variable {o : Oracle} {p : Peer} {valid : Bool} {rsp : CommandRsp} {i : Nat} {lock : Entry}

/-- A response that is not handled makes nobody send a command. -/
theorem sent_of_not_handles (unhandled : ¬p.Handles valid rsp) :
    wp (recvCommandRsp o valid rsp) (fun _ t ↦ t.sent = []) ⟨p, [], [], []⟩ := by
  intro _ t ht
  by_cases redirects : p.Redirects valid rsp
  · rw [recvCommandRsp_of_redirects redirects] at ht
    exact (recvRedirect_spec rsp _ _ t ht).1
  · rw [recvCommandRsp_of_ignores unhandled redirects] at ht
    obtain ⟨⟩ := ht
    rfl

/-- The response to a resolved lock is answered with an entry that was never set. -/
theorem recvCommandRsp_of_resolved (handles : p.Handles valid rsp) (type : rsp.tag.type = .lock)
    (found : p.existInLog rsp.tag = some i) (resolved : p.lockIsResolved i = .ok true)
    (committed : p.lockResolveIsCommitted i = .ok true) :
    recvCommandRsp o valid rsp ⟨p, [], [], []⟩ = .ok (⟨⟩,
      ⟨{ p with missingResp := (p.cleared rsp).insert rsp.source (p.resolveRequest o rsp) },
        [.commandReq (p.resolveRequest o rsp)], [], []⟩) := by
  rw [recvCommandRsp_of_handles (s := ⟨p, [], [], []⟩) handles, type]
  exact (recvLockRsp_of_resolved found resolved).trans (answerResolved_eq committed)

/-- The commands that answer late responses carry the first resolution of the lock, and the two
scans agree, exactly when the unset entry happens to be that resolution wherever it is sent, and
every LOCK with a committed entry of its event after it has one there that is no LOCK.
`src/enclave/raft.cpp:104–147`, `src/enclave/enclave.cpp:627–645`. -/
theorem late_response_answered_iff (type : rsp.tag.type = .lock)
    (found : p.existInLog rsp.tag = some i) (logged : p.log[i]? = some lock)
    (tag : lock.tag = rsp.tag) :
    ((p.lockIsResolved i = .ok true → ∀ t, recvCommandRsp o valid rsp ⟨p, [], [], []⟩ = .ok (⟨⟩, t) →
        ∀ req, .commandReq req ∈ t.sent →
          ∃ e, p.FirstResolution i lock e ∧ req.tag = e.tag ∧ req.event = e.event) ∧
      (p.lockResolveIsCommitted i = .ok true ↔ p.lockIsResolved i = .ok true)) ↔
    (p.Handles valid rsp → (p.CommittedAfter i fun e ↦ e.tag.type ≠ .lock ∧ e.event = lock.event) →
        ∃ e, p.FirstResolution i lock e ∧ o.junkResolve.tag = e.tag ∧
          o.junkResolve.event = e.event) ∧
      ((p.CommittedAfter i fun e ↦ e.event = lock.event) →
        p.CommittedAfter i fun e ↦ e.tag.type ≠ .lock ∧ e.event = lock.event) := by
  have isLock : lock.tag.type = .lock := tag ▸ type
  have weaken : (p.CommittedAfter i fun e ↦ e.tag.type ≠ .lock ∧ e.event = lock.event) →
      p.CommittedAfter i fun e ↦ e.event = lock.event := by
    rintro ⟨j, e, hij, hj, he, -, hevent⟩
    exact ⟨j, e, hij, hj, he, hevent⟩
  rw [p.lockIsResolved_iff logged isLock, p.lockResolveIsCommitted_iff logged isLock]
  constructor
  · rintro ⟨answers, agree⟩
    refine ⟨fun handles resolved ↦ ?_, agree.mp⟩
    have call := recvCommandRsp_of_resolved (o := o) handles type found
      ((p.lockIsResolved_iff logged isLock).mpr resolved)
      ((p.lockResolveIsCommitted_iff logged isLock).mpr (weaken resolved))
    exact answers resolved _ call (p.resolveRequest o rsp) List.mem_cons_self
  · rintro ⟨outcome, agree⟩
    refine ⟨fun resolved t ht req hreq ↦ ?_, agree, weaken⟩
    by_cases handles : p.Handles valid rsp
    · rw [recvCommandRsp_of_resolved handles type found
        ((p.lockIsResolved_iff logged isLock).mpr resolved)
        ((p.lockResolveIsCommitted_iff logged isLock).mpr (weaken resolved))] at ht
      obtain ⟨⟩ := ht
      obtain rfl := Message.commandReq.inj (List.mem_singleton.mp hreq)
      exact outcome handles resolved
    · rw [sent_of_not_handles handles _ t ht] at hreq
      exact nomatch hreq

/-- What a call finds where it reads the entry `unset`. -/
def reading (unset : Entry) : Oracle := { silent with junkEntry := unset, junkResolve := unset }

/-- An attempt that is executed and committed, of a cluster with one peer. -/
def executedPeer : Peer where
  __ := Peer.zero
  id := ⟨0, 11⟩
  clusterEvent := ⟨0, 1⟩
  role := .leader
  log := [getEmptyEntry, ⟨1, 0, ⟨0, 1⟩, ⟨0, 11⟩, ⟨⟨0, 101⟩, .lock⟩⟩,
    ⟨2, 0, ⟨0, 1⟩, ⟨0, 11⟩, ⟨⟨0, 101⟩, .exec⟩⟩]
  commitIndex := 2

/-- The response to its LOCK, which comes late. -/
def lateRsp : CommandRsp := ⟨⟨0, 11⟩, ⟨0, 21⟩, ⟨⟨0, 101⟩, .lock⟩, true, emptyUid⟩

/-- With the EXEC entry in the unset one, the late response is answered with the execution. -/
theorem executedPeer_late_response_answered :
    executedPeer.lockIsResolved 1 = .ok true ∧ ∀ t,
      recvCommandRsp (reading ⟨2, 0, ⟨0, 1⟩, ⟨0, 11⟩, ⟨⟨0, 101⟩, .exec⟩⟩) true lateRsp
        ⟨executedPeer, [], [], []⟩ = .ok (⟨⟩, t) →
      ∀ req, .commandReq req ∈ t.sent → ∃ e,
        executedPeer.FirstResolution 1 ⟨1, 0, ⟨0, 1⟩, ⟨0, 11⟩, ⟨⟨0, 101⟩, .lock⟩⟩ e ∧
          req.tag = e.tag ∧ req.event = e.event := by
  have resolution : executedPeer.FirstResolution 1 ⟨1, 0, ⟨0, 1⟩, ⟨0, 11⟩, ⟨⟨0, 101⟩, .lock⟩⟩
      ⟨2, 0, ⟨0, 1⟩, ⟨0, 11⟩, ⟨⟨0, 101⟩, .exec⟩⟩ :=
    ⟨2, by decide, by decide, rfl, rfl, Or.inl rfl, fun k f h1 h2 ↦ by omega⟩
  have resolved : executedPeer.lockIsResolved 1 = .ok true := by decide +kernel
  refine ⟨resolved,
    ((late_response_answered_iff rfl rfl rfl rfl).mpr ⟨fun _ _ ↦ ?_, fun _ ↦ ?_⟩).1 resolved⟩
  · exact ⟨_, resolution, rfl, rfl⟩
  · exact ⟨2, _, by decide, by decide, rfl, by decide, rfl⟩

/-- With the empty entry there, it is answered with a LOCK of no event. -/
theorem not_late_response_answered : ¬ ∀ (o : Oracle) (p : Peer) (valid : Bool) (rsp : CommandRsp)
    (i : Nat) (lock : Entry), rsp.tag.type = .lock → p.existInLog rsp.tag = some i →
    p.log[i]? = some lock → lock.tag = rsp.tag → p.lockIsResolved i = .ok true →
    ∀ t, recvCommandRsp o valid rsp ⟨p, [], [], []⟩ = .ok (⟨⟩, t) →
      ∀ req, .commandReq req ∈ t.sent →
        ∃ e, p.FirstResolution i lock e ∧ req.tag = e.tag ∧ req.event = e.event := by
  intro claim
  obtain ⟨e, ⟨j, hij, hj, he, -⟩, htag, -⟩ := claim (reading getEmptyEntry) executedPeer true
    lateRsp 1 _ rfl rfl rfl rfl (by decide +kernel) _
    (recvCommandRsp_of_resolved (by decide) rfl rfl (by decide +kernel) (by decide +kernel)) _
    List.mem_cons_self
  obtain rfl : j = 2 := Nat.le_antisymm hj hij
  obtain rfl := Option.some.inj he
  exact absurd htag (by decide)

end TrustedDcr.Enclave
