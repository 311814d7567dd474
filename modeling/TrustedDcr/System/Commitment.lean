import TrustedDcr.System.Simulation

/-!
# Committed entries

A leader commits the middle of the acknowledgements it has, however few, and a
follower removes what it has beyond a request it accepts, however old. In the
runs where a quorum confirmed what is committed and nothing confirmed is removed,
committed entries stay and every member commits the same ones.
-/

namespace TrustedDcr.System
open TrustedDcr.Msg TrustedDcr.Dcr TrustedDcr.Enclave TrustedDcr.Theory

section
variable {cfg : Config} {h : Hist} {s : World}

/-- The records of a cluster in a run that commits safely. -/
theorem Run.tracked_safe (run : Run cfg (CommitsSafely cfg) h s) (x : Uid) :
    ∃ g, Tracked cfg True x h s g := by
  have run' : Run cfg (fun h s a ↦ ElectsFairly cfg h s a ∧ (True → CommitsConfirmed h s a)) h s :=
    run.mono fun _ _ _ hsafe ↦ ⟨hsafe.1, fun _ ↦ hsafe.2⟩
  exact run'.tracked x

/-! ### Within one peer -/

/-- A step that commits safely moves no commit index back and keeps the entries up to it. -/
theorem committed_of_step (run : Run cfg (CommitsSafely cfg) h s) {a : Action} {t : World}
    (meets : CommitsSafely cfg h s a) (next : s.step cfg a = some t) {x p : Uid}
    (hp : p ∈ cfg.cluster x) : (s.peers p).commitIndex ≤ (t.peers p).commitIndex ∧
      (s.peers p).log.take ((s.peers p).commitIndex + 1) <+: (t.peers p).log := by
  obtain ⟨g, tracked⟩ := run.tracked_safe x
  obtain ⟨wired, delivered⟩ := (run.mono fun _ _ _ hsafe ↦ hsafe.1).wired
  obtain ⟨g', steps, tracked', -⟩ :=
    tracked.step wired delivered meets.1 (fun _ ↦ meets.2) next
  have hm := tracked.sim.peers p hp
  have hm' := tracked'.sim.peers p hp
  have hkept := (tracked.sim.safe trivial).steps_committed tracked.sim.sound trivial steps p
  rwa [hm.commit, hm.log, hm'.commit, hm'.log] at hkept

/-- Committed entries are in the log, and no step loses them.
`src/enclave/enclave.cpp:685–729`. -/
theorem committed_entries_stay (run : Run cfg (CommitsSafely cfg) h s) {p : Uid}
    (hp : p ∈ cfg.peerToEventMap) :
    (s.peers p).commitIndex < (s.peers p).log.length ∧
      ∀ a t, CommitsSafely cfg h s a → s.step cfg a = some t →
        (s.peers p).commitIndex ≤ (t.peers p).commitIndex ∧
          ∀ i ≤ (s.peers p).commitIndex, (t.peers p).log[i]? = (s.peers p).log[i]? := by
  have hp := Config.mem_cluster_clusterOf hp
  obtain ⟨g, tracked⟩ := run.tracked_safe (cfg.clusterOf p)
  have hlt := (tracked.covered trivial s List.mem_cons_self p hp).1
  refine ⟨hlt, fun a t meets next ↦ ?_⟩
  obtain ⟨hle, hpre⟩ := committed_of_step run meets next hp
  refine ⟨hle, fun i hi ↦ ?_⟩
  obtain ⟨r, hr⟩ := hpre
  rw [← hr, List.getElem?_append_left, List.getElem?_take_of_lt (by omega)]
  rw [List.length_take_of_le hlt]
  omega

end

/-- The follower of two peers keeps its committed entry over a heartbeat. -/
theorem duo_committed_entry_stays : ∃ h s a t, Run duo (CommitsSafely duo) h s ∧
    s.step duo a = some t ∧ (s.peers ⟨0, 12⟩).commitIndex = 1 ∧
      (t.peers ⟨0, 12⟩).log[1]? = (s.peers ⟨0, 12⟩).log[1]? := by
  obtain ⟨h, s, a, t, run, meets, next, hp, hc⟩ := exists_step_of_replay duo (CommitsSafely duo)
    [.tick ⟨0, 11⟩ 1 emptyUid, .tick ⟨0, 12⟩ 1 emptyUid, .tick ⟨0, 11⟩ 10000 emptyUid,
      .deliver ⟨0, 12⟩ 0, .deliver ⟨0, 11⟩ 1, .deliver ⟨0, 12⟩ 2, .deliver ⟨0, 11⟩ 3,
      .start ⟨0, 11⟩ ⟨0, 1⟩ ⟨0, 101⟩, .deliver ⟨0, 11⟩ 5, .deliver ⟨0, 12⟩ 6, .deliver ⟨0, 11⟩ 7,
      .tick ⟨0, 11⟩ 20000 emptyUid, .deliver ⟨0, 12⟩ 9]
    (.deliver ⟨0, 12⟩ 10)
    (fun _ s _ _ ↦ ⟨0, 12⟩ ∈ duo.peerToEventMap ∧ (s.peers ⟨0, 12⟩).commitIndex = 1)
    (by decide +kernel)
  exact ⟨h, s, a, t, run, next, hc,
    ((committed_entries_stay run hp).2 a t meets next).2 1 (Nat.le_of_eq hc.symm)⟩

/-- A heartbeat that arrives late removes a committed entry. -/
theorem not_committed_entries_stay : ¬ ∀ (cfg : Config) (h : Hist) (s : World) (p : Uid),
    Run cfg anyStep h s → p ∈ cfg.peerToEventMap →
      (s.peers p).commitIndex < (s.peers p).log.length ∧ ∀ a t, s.step cfg a = some t →
        (s.peers p).commitIndex ≤ (t.peers p).commitIndex ∧
          ∀ i ≤ (s.peers p).commitIndex, (t.peers p).log[i]? = (s.peers p).log[i]? := by
  intro claim
  obtain ⟨h, s, run, hp, hle⟩ := exists_run_of_replay duo anyStep
    [.tick ⟨0, 11⟩ 1 emptyUid, .tick ⟨0, 12⟩ 1 emptyUid, .tick ⟨0, 11⟩ 10000 emptyUid,
      .deliver ⟨0, 12⟩ 0, .deliver ⟨0, 11⟩ 1, .deliver ⟨0, 12⟩ 2, .deliver ⟨0, 11⟩ 3,
      .start ⟨0, 11⟩ ⟨0, 1⟩ ⟨0, 101⟩, .deliver ⟨0, 11⟩ 5, .deliver ⟨0, 12⟩ 6, .deliver ⟨0, 11⟩ 7,
      .tick ⟨0, 11⟩ 20000 emptyUid, .deliver ⟨0, 12⟩ 9, .deliver ⟨0, 12⟩ 4]
    (fun _ s ↦ ⟨0, 12⟩ ∈ duo.peerToEventMap ∧
      (s.peers ⟨0, 12⟩).log.length ≤ (s.peers ⟨0, 12⟩).commitIndex)
    (by decide +kernel)
  exact absurd (claim duo h s _ run hp).1 (Nat.not_lt.mpr hle)

/-! ### Between the peers of a cluster -/

/-- The entry at `i` when the commit index of `p` reached `i` in a run. -/
def CommittedEntry : Hist → World → Uid → Nat → Entry → Prop
  | [], s, p, i, e => i ≤ (s.peers p).commitIndex ∧ (s.peers p).log[i]? = some e
  | (s', _) :: h, s, p, i, e => CommittedEntry h s' p i e ∨
      ((s'.peers p).commitIndex < i ∧ i ≤ (s.peers p).commitIndex) ∧ (s.peers p).log[i]? = some e

instance CommittedEntry.decidable : (h : Hist) → (s : World) → (p : Uid) → (i : Nat) →
    (e : Entry) → Decidable (CommittedEntry h s p i e)
  | [], s, p, i, e =>
    inferInstanceAs (Decidable (i ≤ (s.peers p).commitIndex ∧ (s.peers p).log[i]? = some e))
  | (s', _) :: h, s, p, i, e =>
    have := CommittedEntry.decidable h s' p i e
    inferInstanceAs (Decidable (CommittedEntry h s' p i e ∨
      ((s'.peers p).commitIndex < i ∧ i ≤ (s.peers p).commitIndex) ∧
        (s.peers p).log[i]? = some e))

/-- A committed entry was in the log of a state of the run, up to its commit index. -/
theorem CommittedEntry.exists_state {h : Hist} {s : World} {p : Uid} {i : Nat} {e : Entry}
    (hc : CommittedEntry h s p i e) :
    ∃ t ∈ states h s, i ≤ (t.peers p).commitIndex ∧ (t.peers p).log[i]? = some e := by
  induction h generalizing s with
  | nil => exact ⟨s, List.mem_cons_self, hc⟩
  | cons step h ih =>
    rcases hc with hc | ⟨⟨-, hi⟩, he⟩
    · obtain ⟨t, ht, hrest⟩ := ih hc
      exact ⟨t, List.mem_cons_of_mem _ ht, hrest⟩
    · exact ⟨s, List.mem_cons_self, hi, he⟩

/-- What members of a cluster have committed, at whatever times, is of one line. -/
theorem Run.committed_isPrefix {cfg : Config} {h : Hist} {s : World}
    (run : Run cfg (CommitsSafely cfg) h s) {x p q : Uid} (hp : p ∈ cfg.cluster x)
    (hq : q ∈ cfg.cluster x) {t u : World} (ht : t ∈ states h s) (hu : u ∈ states h s) :
    (t.peers p).node.committed <+: (u.peers q).node.committed ∨
      (u.peers q).node.committed <+: (t.peers p).node.committed := by
  obtain ⟨g, tracked⟩ := run.tracked_safe x
  exact (tracked.sim.safe trivial).covered_isPrefix tracked.sim.sound
    (tracked.covered trivial t ht p hp).2 (tracked.covered trivial u hu q hq).2

/-- All members of a cluster commit the same entry at an index, whenever they do.
`src/enclave/enclave.cpp:732–767`. -/
theorem committed_entries_agree {cfg : Config} {h : Hist} {s : World}
    (run : Run cfg (CommitsSafely cfg) h s) {x p q : Uid} (hp : p ∈ cfg.cluster x)
    (hq : q ∈ cfg.cluster x) {i : Nat} {e f : Entry} (he : CommittedEntry h s p i e)
    (hf : CommittedEntry h s q i f) : e = f := by
  obtain ⟨t, ht, hi, he⟩ := he.exists_state
  obtain ⟨u, hu, hj, hf⟩ := hf.exists_state
  have he' : (t.peers p).node.committed[i]? = some e :=
    (List.getElem?_take_of_lt (by exact Nat.lt_succ_of_le hi)).trans he
  have hf' : (u.peers q).node.committed[i]? = some f :=
    (List.getElem?_take_of_lt (by exact Nat.lt_succ_of_le hj)).trans hf
  have same {l l' : List Entry} {a b : Entry} (hl : l <+: l') (ha : l[i]? = some a)
      (hb : l'[i]? = some b) : a = b :=
    Option.some.inj ((getElem?_of_isPrefix hl ha).symm.trans hb)
  rcases run.committed_isPrefix hp hq ht hu with hpre | hpre
  · exact same hpre he' hf'
  · exact (same hpre hf' he').symm

/-- Leader and follower of two peers commit the same entry. -/
theorem duo_committed_entries_agree : ∃ h s, Run duo (CommitsSafely duo) h s ∧
    ∃ e, CommittedEntry h s ⟨0, 11⟩ 1 e ∧ ∀ f, CommittedEntry h s ⟨0, 12⟩ 1 f → e = f := by
  let e : Entry := ⟨1, 1, ⟨0, 1⟩, ⟨0, 11⟩, ⟨⟨0, 101⟩, .exec⟩⟩
  obtain ⟨h, s, run, hp, hq, he⟩ := exists_run_of_replay duo (CommitsSafely duo)
    [.tick ⟨0, 11⟩ 1 emptyUid, .tick ⟨0, 12⟩ 1 emptyUid, .tick ⟨0, 11⟩ 10000 emptyUid,
      .deliver ⟨0, 12⟩ 0, .deliver ⟨0, 11⟩ 1, .deliver ⟨0, 12⟩ 2, .deliver ⟨0, 11⟩ 3,
      .start ⟨0, 11⟩ ⟨0, 1⟩ ⟨0, 101⟩, .deliver ⟨0, 11⟩ 5, .deliver ⟨0, 12⟩ 6, .deliver ⟨0, 11⟩ 7,
      .tick ⟨0, 11⟩ 20000 emptyUid, .deliver ⟨0, 12⟩ 9]
    (fun h s ↦ ⟨0, 11⟩ ∈ duo.cluster ⟨0, 1⟩ ∧ ⟨0, 12⟩ ∈ duo.cluster ⟨0, 1⟩ ∧
      CommittedEntry h s ⟨0, 11⟩ 1 e)
    (by decide +kernel)
  exact ⟨h, s, run, e, he, fun f hf ↦ committed_entries_agree run hp hq he hf⟩

/-- The step delivers no message more often than it was sent. -/
def DeliversOnce (h : Hist) (s : World) (a : Action) : Prop :=
  match a.call with
  | .recv msg => (h.countP fun step ↦ step.2.call = .recv msg) < s.net.count msg
  | _ => True

instance (h : Hist) (s : World) (a : Action) : Decidable (DeliversOnce h s a) := by
  unfold DeliversOnce
  induction a.call using Call.casesOn with
  | recv m => induction m using Message.casesOn <;> infer_instance
  | _ => infer_instance

/-- Two of five peers are enough to commit, so the other three can commit something else. -/
theorem not_committed_entries_agree : ¬ ∀ (cfg : Config) (h : Hist) (s : World) (x p q : Uid)
    (i : Nat) (e f : Entry), Run cfg DeliversOnce h s → p ∈ cfg.cluster x → q ∈ cfg.cluster x →
      CommittedEntry h s p i e → CommittedEntry h s q i f → e = f := by
  intro claim
  let e : Entry := ⟨1, 1, ⟨0, 1⟩, ⟨0, 11⟩, ⟨⟨0, 101⟩, .exec⟩⟩
  let f : Entry := ⟨1, 2, ⟨0, 1⟩, ⟨0, 13⟩, ⟨⟨0, 102⟩, .exec⟩⟩
  obtain ⟨h, s, run, hp, hq, he, hf⟩ := exists_run_of_replay quintet DeliversOnce
    [.tick ⟨0, 11⟩ 1 emptyUid, .tick ⟨0, 11⟩ 10000 emptyUid, .tick ⟨0, 12⟩ 1 emptyUid,
      .tick ⟨0, 13⟩ 1 emptyUid, .deliver ⟨0, 12⟩ 0, .deliver ⟨0, 13⟩ 1, .deliver ⟨0, 11⟩ 4,
      .deliver ⟨0, 11⟩ 5, .deliver ⟨0, 12⟩ 6, .deliver ⟨0, 13⟩ 7, .deliver ⟨0, 11⟩ 10,
      .deliver ⟨0, 11⟩ 11, .start ⟨0, 11⟩ ⟨0, 1⟩ ⟨0, 101⟩, .deliver ⟨0, 11⟩ 16,
      .deliver ⟨0, 12⟩ 17, .deliver ⟨0, 11⟩ 21,
      .tick ⟨0, 13⟩ 10000 emptyUid, .tick ⟨0, 14⟩ 1 emptyUid, .tick ⟨0, 15⟩ 1 emptyUid,
      .deliver ⟨0, 14⟩ 25, .deliver ⟨0, 15⟩ 26, .deliver ⟨0, 13⟩ 27, .deliver ⟨0, 13⟩ 28,
      .deliver ⟨0, 14⟩ 31, .deliver ⟨0, 15⟩ 32, .deliver ⟨0, 13⟩ 33, .deliver ⟨0, 13⟩ 34,
      .start ⟨0, 13⟩ ⟨0, 1⟩ ⟨0, 102⟩, .deliver ⟨0, 13⟩ 39, .deliver ⟨0, 14⟩ 42,
      .deliver ⟨0, 13⟩ 44]
    (fun h s ↦ ⟨0, 11⟩ ∈ quintet.cluster ⟨0, 1⟩ ∧ ⟨0, 13⟩ ∈ quintet.cluster ⟨0, 1⟩ ∧
      CommittedEntry h s ⟨0, 11⟩ 1 e ∧ CommittedEntry h s ⟨0, 13⟩ 1 f)
    (by decide +kernel)
  exact absurd (claim quintet h s _ _ _ _ _ _ run hp hq he hf) (by decide)

end TrustedDcr.System
