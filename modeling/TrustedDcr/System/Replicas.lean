import TrustedDcr.System.Commitment

/-!
# Replicas of one cluster

Each peer executes what it commits on a workflow of its own. In runs that commit
safely the workflows of a cluster go through the same markings, each at its pace:
of any two, at whatever times, the one with the larger commit index is the other
one after the entries that were committed beyond it.
-/

namespace TrustedDcr.System
open TrustedDcr.Msg TrustedDcr.Dcr TrustedDcr.Dcr.DcrWorkflow TrustedDcr.Enclave

variable {cfg : Config} {h : Hist} {s : World}

/-- A workflow is what its peer committed, in every state of the run. -/
theorem Run.replica (run : Run cfg (CommitsSafely cfg) h s) {t : World} (ht : t ∈ states h s)
    {x p : Uid} (hp : p ∈ cfg.cluster x) : Replica cfg (t.peers p).node (t.peers p).workflow := by
  induction run with
  | initial =>
    obtain ⟨g, tracked⟩ := (Run.initial (C := CommitsSafely cfg)).tracked_safe x
    rw [List.mem_singleton.mp ht]
    exact tracked.replica trivial p hp
  | step run meets next ih =>
    rcases List.mem_cons.mp ht with rfl | ht
    · obtain ⟨g, tracked⟩ := (run.step meets next).tracked_safe x
      exact tracked.replica trivial p hp
    · exact ih ht

/-- In every state of the run the commit index is within the log. -/
theorem Run.length_committed (run : Run cfg (CommitsSafely cfg) h s) {t : World}
    (ht : t ∈ states h s) {x p : Uid} (hp : p ∈ cfg.cluster x) :
    (t.peers p).node.committed.length = (t.peers p).commitIndex + 1 := by
  obtain ⟨g, tracked⟩ := run.tracked_safe x
  exact List.length_take_of_le (tracked.covered trivial t ht p hp).1

/-- Of what two members have committed, the shorter is a prefix of the longer. -/
theorem Run.committed_isPrefix_of_le (run : Run cfg (CommitsSafely cfg) h s) {x p q : Uid}
    (hp : p ∈ cfg.cluster x) (hq : q ∈ cfg.cluster x) {t u : World} (ht : t ∈ states h s)
    (hu : u ∈ states h s) (hle : (t.peers p).commitIndex ≤ (u.peers q).commitIndex) :
    (t.peers p).node.committed <+: (u.peers q).node.committed := by
  rcases run.committed_isPrefix hp hq ht hu with hpre | hpre
  · exact hpre
  · have hlen : (t.peers p).node.committed.length ≤ (u.peers q).node.committed.length := by
      rw [run.length_committed ht hp, run.length_committed hu hq]
      exact Nat.succ_le_succ hle
    rw [hpre.eq_of_length_le hlen]

/-- Of two replicas of a cluster, the one that committed more is the other one after the entries
committed beyond it, and finds the same events enabled. `src/enclave/enclave.cpp:351–417`. -/
theorem replicas_of_cluster_agree (run : Run cfg (CommitsSafely cfg) h s) {x p q : Uid}
    (hp : p ∈ cfg.cluster x) (hq : q ∈ cfg.cluster x) {t u : World} (ht : t ∈ states h s)
    (hu : u ∈ states h s) (hle : (t.peers p).commitIndex ≤ (u.peers q).commitIndex) :
    let later := executeEntries (t.peers p).workflow
      ((u.peers q).node.committed.drop ((t.peers p).commitIndex + 1))
    SameReads later (u.peers q).workflow ∧
      ∀ e, ((u.peers q).workflow.isEventEnabled e).1 = (later.isEventEnabled e).1 := by
  intro later
  have reads : SameReads later (u.peers q).workflow := by
    obtain ⟨rest, hrest⟩ := run.committed_isPrefix_of_le hp hq ht hu hle
    have hlater : later = executeEntries (t.peers p).workflow rest := by
      change executeEntries _ ((u.peers q).node.committed.drop _) = _
      rw [← hrest, ← run.length_committed ht hp, List.drop_left]
    have hboth := run.replica hu hq
    change SameReads (executeEntries _ (u.peers q).node.committed) _ at hboth
    rw [← hrest, executeEntries_append] at hboth
    rw [hlater]
    exact (sameReads_executeEntries (run.replica ht hp) rest).symm.trans hboth
  exact ⟨reads, reads.isEventEnabled_eq⟩

/-- The follower of two peers, one execution behind, has the leader's workflow but for that
execution. -/
theorem duo_replicas_agree : ∃ h s, Run duo (CommitsSafely duo) h s ∧
    (s.peers ⟨0, 12⟩).commitIndex < (s.peers ⟨0, 11⟩).commitIndex ∧
    SameReads ((s.peers ⟨0, 12⟩).workflow.setEventExecuted ⟨0, 1⟩) (s.peers ⟨0, 11⟩).workflow := by
  obtain ⟨h, s, run, hp, hq, hlt, hnew⟩ := exists_run_of_replay duo (CommitsSafely duo)
    [.tick ⟨0, 11⟩ 1 emptyUid, .tick ⟨0, 12⟩ 1 emptyUid, .tick ⟨0, 11⟩ 10000 emptyUid,
      .deliver ⟨0, 12⟩ 0, .deliver ⟨0, 11⟩ 1, .deliver ⟨0, 12⟩ 2, .deliver ⟨0, 11⟩ 3,
      .start ⟨0, 11⟩ ⟨0, 1⟩ ⟨0, 101⟩, .deliver ⟨0, 11⟩ 5, .deliver ⟨0, 12⟩ 6, .deliver ⟨0, 11⟩ 7]
    (fun _ s ↦ ⟨0, 12⟩ ∈ duo.cluster ⟨0, 1⟩ ∧ ⟨0, 11⟩ ∈ duo.cluster ⟨0, 1⟩ ∧
      (s.peers ⟨0, 12⟩).commitIndex < (s.peers ⟨0, 11⟩).commitIndex ∧
      (s.peers ⟨0, 11⟩).node.committed.drop ((s.peers ⟨0, 12⟩).commitIndex + 1) =
        [⟨1, 1, ⟨0, 1⟩, ⟨0, 11⟩, ⟨⟨0, 101⟩, .exec⟩⟩])
    (by decide +kernel)
  have agree := (replicas_of_cluster_agree run hp hq List.mem_cons_self List.mem_cons_self
    (Nat.le_of_lt hlt)).1
  rw [hnew] at agree
  exact ⟨h, s, run, hlt, agree⟩

end TrustedDcr.System
