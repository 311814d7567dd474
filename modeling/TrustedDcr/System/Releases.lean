import TrustedDcr.System.Attempts
import TrustedDcr.System.Growth

/-!
# What releases a lock

`lock_is_resolved` takes any committed entry of the LOCK's event that is no LOCK for
its resolution, whichever attempt that entry belongs to and whether it executes,
aborts or merely checkpoints. It answers right where such entries follow the end of
the attempt.
-/

namespace TrustedDcr.System
open TrustedDcr.Msg TrustedDcr.Dcr TrustedDcr.Enclave TrustedDcr.Theory

/-- The execution or abort of the attempt that a LOCK entry starts. -/
def Ends (r lock : Entry) : Prop := Resolves r lock ∧ r.tag.uid = lock.tag.uid

instance (r lock : Entry) : Decidable (Ends r lock) := inferInstanceAs (Decidable (_ ∧ _))

/-- Between a LOCK and an entry of its event that is no LOCK its attempt has ended, if not with that
entry. -/
def EndsInTurn (log : List Entry) : Prop :=
  ∀ (i j : Nat) (lock e : Entry), i < j → log[i]? = some lock → log[j]? = some e →
    lock.tag.type = .lock → e.tag.type ≠ .lock → e.event = lock.event →
    ∃ (k : Nat) (r : Entry), i < k ∧ k ≤ j ∧ log[k]? = some r ∧ Ends r lock

/-- The entry is a LOCK, or no attempt of its event in the log stays open but the one that it
ends. -/
def LeavesNoneOpen (log : List Entry) (e : Entry) : Prop :=
  e.tag.type = .lock ∨ ∀ i < log.length, ∀ lock ∈ log[i]?, lock.tag.type = .lock →
    lock.event = e.event → Ends e lock ∨ ∃ r ∈ log.drop (i + 1), Ends r lock

instance (log : List Entry) (e : Entry) : Decidable (LeavesNoneOpen log e) :=
  inferInstanceAs (Decidable (_ ∨ _))

/-- Fair elections, and nothing appended of an event with an open attempt but LOCKs and its end. -/
def EndsFairly (cfg : Config) (h : Hist) (s : World) (a : Action) : Prop :=
  ElectsFairly cfg h s a ∧
    ∀ e ∈ (s.peers a.peer).appends a.oracle a.call, LeavesNoneOpen (s.peers a.peer).log e

instance (cfg : Config) (h : Hist) (s : World) (a : Action) : Decidable (EndsFairly cfg h s a) :=
  inferInstanceAs (Decidable (_ ∧ _))

private theorem EndsInTurn.of_isPrefix {l l' : List Entry} (hp : l' <+: l) (h : EndsInTurn l) :
    EndsInTurn l' := by
  intro i j lock e hij hlock he type other event
  have hj := (List.getElem?_eq_some_iff.mp he).1
  obtain ⟨k, r, hik, hkj, hr, ends⟩ := h i j lock e hij (getElem?_of_isPrefix hp hlock)
    (getElem?_of_isPrefix hp he) type other event
  rw [getElem?_eq_of_isPrefix hp (by omega)] at hr
  exact ⟨k, r, hik, hkj, hr, ends⟩

private theorem EndsInTurn.append {l : List Entry} (h : EndsInTurn l) {e : Entry}
    (leaves : LeavesNoneOpen l e) : EndsInTurn (l ++ [e]) := by
  intro i j lock f hij hlock hf type other event
  have hj := (List.getElem?_eq_some_iff.mp hf).1
  have hpre : l <+: l ++ [e] := List.prefix_append _ _
  rw [List.length_append, List.length_singleton] at hj
  rw [getElem?_eq_of_isPrefix hpre (by omega)] at hlock
  rcases getElem?_concat_cases hf with ⟨hlt, hf⟩ | ⟨rfl, rfl⟩
  · obtain ⟨k, r, hik, hkj, hr, ends⟩ := h i j lock f hij hlock hf type other event
    exact ⟨k, r, hik, hkj, getElem?_of_isPrefix hpre hr, ends⟩
  · rcases leaves with isLock | ended
    · exact absurd isLock other
    · rcases ended i hij lock hlock type event.symm with ends | ⟨r, hr, ends⟩
      · exact ⟨l.length, f, hij, Nat.le_refl _, List.getElem?_concat_length, ends⟩
      · obtain ⟨n, hn⟩ := List.mem_iff_getElem?.mp hr
        rw [List.getElem?_drop] at hn
        have hk := (List.getElem?_eq_some_iff.mp hn).1
        exact ⟨i + 1 + n, r, by omega, by omega, getElem?_of_isPrefix hpre hn, ends⟩

/-- All attempts end in turn. -/
theorem Run.endsInTurn {cfg : Config} {h : Hist} {s : World} (run : Run cfg (EndsFairly cfg) h s)
    {p : Uid} (hp : p ∈ cfg.peerToEventMap) : EndsInTurn (s.peers p).log := by
  refine run.grown (Φ := EndsInTurn) (fun _ _ _ fair ↦ fair.1) (fun _ _ ↦ .of_isPrefix) ?_ ?_ s
    List.mem_cons_self p (Config.mem_cluster_clusterOf hp)
  · intro i j lock e hij _ he
    have := (List.getElem?_eq_some_iff.mp he).1
    simp at this
    omega
  · intro h s a t _ fair _ member e appends ended
    exact (ended s List.mem_cons_self _ member).append (fair.2 e appends)

/-- A LOCK counts as resolved exactly when its own execution or abort is committed, in every state
of a run in which nothing of the event of an open attempt is appended but LOCKs and its end.
`src/enclave/raft.cpp:104–115`. -/
theorem lock_resolved_by_own_end {cfg : Config} {h : Hist} {s : World}
    (run : Run cfg (EndsFairly cfg) h s) {p : Uid} (hp : p ∈ cfg.peerToEventMap) {i : Nat}
    {lock : Entry} (found : (s.peers p).log[i]? = some lock) (type : lock.tag.type = .lock) :
    (s.peers p).lockIsResolved i = .ok true ↔
      (s.peers p).CommittedAfter i fun e ↦ (e.tag.type = .exec ∨ e.tag.type = .abort) ∧
        e.event = lock.event ∧ e.tag.uid = lock.tag.uid := by
  rw [(s.peers p).lockIsResolved_iff found type]
  constructor
  · rintro ⟨j, e, hij, committed, he, other, event⟩
    obtain ⟨k, r, hik, hkj, hr, ⟨⟨ends, own⟩, uid⟩⟩ :=
      run.endsInTurn hp i j lock e hij found he type other event
    exact ⟨k, r, hik, hkj.trans committed, hr, ends, own, uid⟩
  · rintro ⟨j, e, hij, committed, he, ends, event, -⟩
    refine ⟨j, e, hij, committed, he, ?_, event⟩
    rcases ends with h | h <;> simp [h]

/-- A LOCK of an executed attempt has its own execution committed. -/
theorem rivals_lock_resolved_by_own_end : ∃ h s, Run rivals (EndsFairly rivals) h s ∧
    (s.peers ⟨0, 11⟩).CommittedAfter 1 fun e ↦ (e.tag.type = .exec ∨ e.tag.type = .abort) ∧
      e.event = ⟨0, 1⟩ ∧ e.tag.uid = ⟨0, 101⟩ := by
  let lock : Entry := ⟨1, 0, ⟨0, 1⟩, ⟨0, 11⟩, ⟨⟨0, 101⟩, .lock⟩⟩
  obtain ⟨h, s, run, hp, found, resolved⟩ := exists_run_of_replay rivals (EndsFairly rivals)
    [.start ⟨0, 11⟩ ⟨0, 1⟩ ⟨0, 101⟩, .deliver ⟨0, 11⟩ 0, .deliver ⟨0, 21⟩ 1, .deliver ⟨0, 11⟩ 2]
    (fun _ s ↦ ⟨0, 11⟩ ∈ rivals.peerToEventMap ∧ (s.peers ⟨0, 11⟩).log[1]? = some lock ∧
      (s.peers ⟨0, 11⟩).lockIsResolved 1 = .ok true)
    (by decide +kernel)
  exact ⟨h, s, run, (lock_resolved_by_own_end run hp found rfl).mp resolved⟩

/-- A leader appends a checkpoint while the LOCK of its second attempt waits for commitment; first the
LOCK is committed and then the checkpoint. -/
def rushedCheckpoint : List Cue × List Cue :=
  ([.tick ⟨0, 11⟩ 1 emptyUid, .tick ⟨0, 12⟩ 1 emptyUid, .tick ⟨0, 11⟩ 10000 emptyUid,
    .deliver ⟨0, 12⟩ 0, .deliver ⟨0, 11⟩ 1, .deliver ⟨0, 12⟩ 2, .deliver ⟨0, 11⟩ 3,
    .start ⟨0, 11⟩ ⟨0, 1⟩ ⟨0, 101⟩, .deliver ⟨0, 11⟩ 5, .deliver ⟨0, 12⟩ 6, .deliver ⟨0, 11⟩ 7,
    .deliver ⟨0, 21⟩ 8, .deliver ⟨0, 11⟩ 9, .deliver ⟨0, 21⟩ 10, .deliver ⟨0, 12⟩ 11,
    .deliver ⟨0, 11⟩ 12, .deliver ⟨0, 11⟩ 13, .start ⟨0, 11⟩ ⟨0, 1⟩ ⟨0, 102⟩, .deliver ⟨0, 11⟩ 15,
    .tick ⟨0, 11⟩ 20000 ⟨0, 103⟩, .deliver ⟨0, 12⟩ 16, .deliver ⟨0, 11⟩ 19],
   [.deliver ⟨0, 12⟩ 18, .deliver ⟨0, 11⟩ 21])

/-- The checkpoint releases a lock whose attempt is neither executed nor aborted. -/
theorem not_lock_resolved_by_own_end : ¬ ∀ (cfg : Config) (h : Hist) (s : World) (p : Uid) (i : Nat)
    (lock : Entry), Run cfg anyStep h s → p ∈ cfg.peerToEventMap →
    (s.peers p).log[i]? = some lock → lock.tag.type = .lock →
    ((s.peers p).lockIsResolved i = .ok true ↔
      (s.peers p).CommittedAfter i fun e ↦ (e.tag.type = .exec ∨ e.tag.type = .abort) ∧
        e.event = lock.event ∧ e.tag.uid = lock.tag.uid) := by
  intro claim
  let lock : Entry := ⟨3, 1, ⟨0, 1⟩, ⟨0, 11⟩, ⟨⟨0, 102⟩, .lock⟩⟩
  let check : Entry := ⟨4, 1, ⟨0, 1⟩, ⟨0, 11⟩, ⟨⟨0, 103⟩, .checkpoint⟩⟩
  obtain ⟨h, s, run, hp, found, resolved, hc, last⟩ := exists_run_of_replay trio anyStep
    (rushedCheckpoint.1 ++ rushedCheckpoint.2)
    (fun _ s ↦ ⟨0, 11⟩ ∈ trio.peerToEventMap ∧ (s.peers ⟨0, 11⟩).log[3]? = some lock ∧
      (s.peers ⟨0, 11⟩).lockIsResolved 3 = .ok true ∧ (s.peers ⟨0, 11⟩).commitIndex = 4 ∧
      (s.peers ⟨0, 11⟩).log[4]? = some check)
    (by decide +kernel)
  obtain ⟨j, e, hj, committed, he, ends, -⟩ := (claim trio h s _ 3 lock run hp found rfl).mp resolved
  rw [hc] at committed
  obtain rfl : j = 4 := by omega
  obtain rfl := Option.some.inj (last.symm.trans he)
  rcases ends with exec | abort
  · exact nomatch exec
  · exact nomatch abort

end TrustedDcr.System
