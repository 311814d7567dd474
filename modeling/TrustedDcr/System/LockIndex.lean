import TrustedDcr.Enclave.LockIndex
import TrustedDcr.System.Alone
import TrustedDcr.System.Growth

/-!
# The cached lock of a leader

No LOCK that is committed ever sets `locked_entry_index`, and of what frees one only an
ABORT unsets it. So the cached position agrees with the log as long as what is
committed at once leaves it so, no abort starts, and each new leader's scan from the
latest checkpoint finds an open LOCK where there is any.
-/

namespace TrustedDcr.System
open TrustedDcr.Msg TrustedDcr.Dcr TrustedDcr.Enclave TrustedDcr.Theory

/-- The step leaves the cached position in step with the log: what a leader that is alone appends
and what any leader commits keeps the lock, no abort starts, and the winner of an election finds
open LOCKs. -/
def KeepsIndex (s : World) (a : Action) : Prop :=
  ((s.peers a.peer).clusterSize = 1 → ∀ e ∈ (s.peers a.peer).appends a.oracle a.call,
    KeepsLock ((s.peers a.peer).log ++ [e]) (s.peers a.peer).lockedEntryIndex
      (s.peers a.peer).commitIndex (s.peers a.peer).log.length) ∧
  match a.call with
  | .recv (.appendRsp rsp) => ∀ n ∈ (s.peers a.peer).commits rsp,
    KeepsLock (s.peers a.peer).log (s.peers a.peer).lockedEntryIndex
      (s.peers a.peer).commitIndex n
  | .recv (.commandRsp rsp) => ¬ (s.peers a.peer).abortsOn rsp
  | .recv (.electionRsp rsp) =>
    (s.peers a.peer).wins rsp = true → (s.peers a.peer).FindsLocks
  | _ => True

instance (s : World) (a : Action) : Decidable (KeepsIndex s a) := by
  unfold KeepsIndex
  refine @instDecidableAnd _ _ inferInstance ?_
  induction a.call using Call.casesOn with
  | recv m => induction m using Message.casesOn <;> infer_instance
  | _ => infer_instance

/-- Since the peer came to lead, all its steps have left its cached position in step. -/
def LeadsInStep (p : Uid) : Hist → World → Prop
  | [], _ => True
  | (s', a) :: h, s =>
    (s.peers p).role = .leader → LeadsInStep p h s' ∧ (a.peer = p → KeepsIndex s' a)

instance decidableLeadsInStep (p : Uid) : (h : Hist) → (s : World) → Decidable (LeadsInStep p h s)
  | [], _ => .isTrue trivial
  | (s', a) :: h, _ =>
    have := decidableLeadsInStep p h s'
    inferInstanceAs (Decidable (_ → LeadsInStep p h s' ∧ (a.peer = p → KeepsIndex s' a)))

/-- Every call but an abort extends what a leader holds, or elects one. -/
theorem holds_body (o : Oracle) (c : Call) {s : EnclaveState}
    (other : ∀ rsp, c = .recv (.commandRsp rsp) → ¬ s.self.abortsOn rsp) :
    wp (c.body o) (fun _ t ↦ Holds s t ∨
      ∃ rsp, c = .recv (.electionRsp rsp) ∧ s.self.wins rsp = true ∧ Takes s t) s := by
  have led {x : Ecall Unit} (h : Along (Led Peer.hold) x) : wp x (fun _ t ↦ Holds s t ∨
      ∃ rsp, c = .recv (.electionRsp rsp) ∧ s.self.wins rsp = true ∧ Takes s t) s :=
    wp_mono (h s) fun _ _ hst ↦ Or.inl (Holds.of_led hst)
  have apart : Apart Peer.hold := beside_hold.toApart
  cases c with
  | setTime ticks => exact wp_mono (holds_setTime ticks s) fun _ _ ↦ Or.inl
  | execute event => exact led (apart.led_execute event)
  | getHistory => exact led apart.led_getHistory
  | recv msg =>
    cases msg with
    | commandReq req => exact wp_mono (alongCalls_holds.recvCommandReq true req) fun _ _ ↦ Or.inl
    | commandRsp rsp => exact wp_mono (holds_recvCommandRsp (other rsp rfl)) fun _ _ ↦ Or.inl
    | appendReq req => exact led (apart.led_recvAppendReq true req)
    | appendRsp rsp => exact wp_mono (holds_recvAppendRsp true rsp s) fun _ _ ↦ Or.inl
    | pollReq req => exact led (led_recvPollReq true req)
    | pollRsp rsp => exact led (apart.led_recvPollRsp true rsp)
    | electionReq req => exact led (apart.led_recvElectionReq true req)
    | electionRsp rsp =>
      exact wp_mono (holds_recvElectionRsp true rsp s) fun _ _ h ↦
        h.imp_right fun wins ↦ ⟨rsp, rfl, wins⟩
    | logReq req => exact led (led_recvLogReq true req)
    | logRsp rsp => exact led (apart.led_recvLogRsp true rsp)

section
variable {cfg : Config} {C : Hist → World → Action → Prop} {h : Hist} {s t : World} {a : Action}
  {p : Uid}

/-- What a leader newly commits: the confirmed part of its log, or when it is alone the entry that
it appends. -/
theorem World.step_commits (run : Run cfg C h s) (meets : C h s a) (next : s.step cfg a = some t)
    (leads : (t.peers a.peer).role = .leader) :
    (t.peers a.peer).commitIndex = (s.peers a.peer).commitIndex ∧
        ((t.peers a.peer).log = (s.peers a.peer).log ∨
          ∃ e, (s.peers a.peer).appends a.oracle a.call = some e ∧
            (t.peers a.peer).log = (s.peers a.peer).log ++ [e]) ∨
      (∃ rsp, a.call = .recv (.appendRsp rsp) ∧
        (s.peers a.peer).commits rsp = some (t.peers a.peer).commitIndex ∧
        (t.peers a.peer).log = (s.peers a.peer).log) ∨
      (s.peers a.peer).clusterSize = 1 ∧
        ∃ e, (s.peers a.peer).appends a.oracle a.call = some e ∧
          (t.peers a.peer).log = (s.peers a.peer).log ++ [e] ∧
          (t.peers a.peer).commitIndex = (s.peers a.peer).log.length := by
  by_cases request : ∃ req, a.call = .recv (.appendReq req)
  · obtain ⟨req, hcall⟩ := request
    have call : wp (a.call.body a.oracle) (fun _ e ↦ Led Peer.hold (s.enclave a.peer) e)
        (s.enclave a.peer) := by
      rw [hcall]
      exact beside_hold.toApart.led_recvAppendReq true req (s.enclave a.peer)
    obtain ⟨-, e, led, hpeers, -⟩ := World.step_of_wp next call
    rw [hpeers, Function.update_self] at leads ⊢
    obtain ⟨-, hold⟩ := led leads
    exact Or.inl ⟨congrArg Hold.commitIndex hold, Or.inl (congrArg Hold.log hold)⟩
  · have other : ∀ req, a.call.received ≠ some (.appendReq req) :=
      fun req received ↦ request ⟨req, Call.eq_recv received⟩
    obtain ⟨-, e, goes, hpeers, -⟩ := World.step_cases next
    have hself : t.peers a.peer = e.self := by rw [hpeers, Function.update_self]
    have size : (t.peers a.peer).clusterSize = (s.peers a.peer).clusterSize :=
      ((run.local.step next).placed a.peer).2.2.trans (run.local.placed a.peer).2.2.symm
    have grown : (t.peers a.peer).log = (s.peers a.peer).log ∨
        ∃ e, (s.peers a.peer).appends a.oracle a.call = some e ∧
          (t.peers a.peer).log = (s.peers a.peer).log ++ [e] := by
      rcases log_of_moves goes.moves rfl with hlog | ⟨f, _, origin, -, hlog⟩ | ⟨req, request, -⟩
      · exact Or.inl (hself ▸ hlog)
      · have hlog : (t.peers a.peer).log = (s.peers a.peer).log ++ [f] := hself ▸ hlog
        exact Or.inr ⟨f, World.step_appends next origin hlog, hlog⟩
      · exact absurd request (other req)
    rcases commitIndex_of_moves goes.moves other rfl with same | ⟨rsp, received, commits⟩ | alone
    · exact Or.inl ⟨hself ▸ same, grown⟩
    · have call := Call.eq_recv received
      refine Or.inr (Or.inl ⟨rsp, call, hself ▸ commits, ?_⟩)
      rcases grown with hlog | ⟨f, appends, -⟩
      · exact hlog
      · rw [call] at appends
        exact nomatch appends
    · have alone : (t.peers a.peer).clusterSize = 1 := hself ▸ alone
      have settled := (run.settled (size ▸ alone)).2
      have settled' := ((run.step meets next).settled alone).2
      rcases grown with hlog | ⟨f, appends, hlog⟩
      · rw [hlog] at settled'
        exact Or.inl ⟨by omega, Or.inl hlog⟩
      · rw [hlog, List.length_append, List.length_singleton] at settled'
        exact Or.inr (Or.inr ⟨size ▸ alone, f, appends, hlog, by omega⟩)

/-- Nothing is lost where nothing is committed. -/
theorem keepsLock_self (log : List Entry) (locked : Int) (c : Nat) : KeepsLock log locked c c := by
  have none : (log.take (c + 1)).drop (c + 1) = [] :=
    List.drop_eq_nil_of_le (List.length_take_le _ _)
  unfold KeepsLock
  rw [none]
  split
  · intro i hi ahead
    omega
  · rw [if_neg (by simp [releases])]
    intro _ h
    cases h

/-- What a step of a run commits keeps the lock of a leader. -/
theorem KeepsIndex.keepsLock (keeps : KeepsIndex s a) (run : Run cfg C h s) (meets : C h s a)
    (next : s.step cfg a = some t) (leads : (t.peers a.peer).role = .leader) :
    KeepsLock (t.peers a.peer).log (s.peers a.peer).lockedEntryIndex (s.peers a.peer).commitIndex
      (t.peers a.peer).commitIndex := by
  rcases World.step_commits run meets next leads with ⟨same, -⟩ | ⟨rsp, hcall, commits, hlog⟩ |
    ⟨alone, e, appends, hlog, commit⟩
  · rw [same]
    exact keepsLock_self _ _ _
  · have confirmed := keeps.2
    rw [hcall] at confirmed
    rw [hlog]
    exact confirmed _ commits
  · rw [hlog, commit]
    exact keeps.1 alone e appends

/-- A peer that leads from the start has no lock cached. -/
theorem configured_lockedEntryIndex (cfg : Config) (id : Uid) :
    (configured cfg id).lockedEntryIndex = -1 := by
  have start : wp (configureEnclave silent id cfg.workflow cfg.peerMap)
      (fun _ t ↦ t.self.lockedEntryIndex = -1) ⟨Peer.zero, [], [], []⟩ := by
    unfold configureEnclave
    refine wp_bind_modifySelf fun t ht ↦ ?_
    have hlog : t.self.log = [getEmptyEntry] := by
      rw [ht]
      rfl
    have hcommit : t.self.commitIndex = 0 := by rw [ht]; rfl
    have hlocked : t.self.lockedEntryIndex = -1 := by rw [ht]
    clear ht
    rw [wp_bind, wp_getSelf]
    refine wp_bind_along (beside_hold.leaderMapAt _) fun leader u hu ↦
      wp_bind_modifySelf fun v hv ↦ ?_
    have log : v.self.log = [getEmptyEntry] := by
      rw [hv]
      exact (congrArg Hold.log hu).trans hlog
    have commit : v.self.commitIndex = 0 := by
      rw [hv]
      exact (congrArg Hold.commitIndex hu).trans hcommit
    rw [wp_ite]
    constructor
    · intro _
      refine wp_mono (becomeLeader_hold v) ?_
      rintro _ w ⟨found, scanned, hw⟩
      have checkpoint : v.self.findLatestCheckpoint = 0 := by
        unfold Peer.findLatestCheckpoint
        rw [log]
        rfl
      have none := @hasUnresolvedLock_of_root v.self.elected log commit checkpoint
      obtain rfl := Except.ok.inj (scanned.symm.trans none)
      exact congrArg Hold.lockedEntryIndex hw
    · intro _
      rw [wp_pure, hv]
      exact (congrArg Hold.lockedEntryIndex hu).trans hlocked
  obtain ⟨a, t, hrun, -⟩ := runs_configureEnclave cfg id
  unfold configured
  rw [hrun]
  exact start a t hrun

/-- As long as its steps leave it in step, the cached position of a leader agrees with its log. -/
theorem Run.agrees (run : Run cfg C h s) (leads : (s.peers p).role = .leader)
    (inStep : LeadsInStep p h s) :
    (s.peers p).commitIndex < (s.peers p).log.length ∧ (s.peers p).hold.Agrees := by
  induction run with
  | initial =>
    have fresh := (fresh_configured cfg p).node
    have hlog : ((World.initial cfg).peers p).log = [getEmptyEntry] := congrArg Node.log fresh
    have hcommit : ((World.initial cfg).peers p).commitIndex = 0 := congrArg Node.commitIndex fresh
    have hlocked : ((World.initial cfg).peers p).lockedEntryIndex = -1 :=
      configured_lockedEntryIndex cfg p
    unfold Peer.hold
    rw [hlog, hcommit, hlocked]
    refine ⟨Nat.one_pos, fun _ i hi ↦ ?_, fun set ↦ absurd rfl set⟩
    obtain rfl : i = 0 := Nat.le_zero.mp hi
    change ¬ OpenLock [getEmptyEntry] 0 0
    decide
  | @step h s t a run meets next ih =>
    obtain ⟨before, last⟩ := inStep leads
    by_cases hne : p = a.peer
    · subst hne
      have last := last rfl
      have other : ∀ rsp, a.call = .recv (.commandRsp rsp) →
          ¬ (s.enclave a.peer).self.abortsOn rsp := by
        intro rsp hcall
        have keeps := last.2
        rw [hcall] at keeps
        exact keeps
      have keeps := last.keepsLock run meets next leads
      obtain ⟨-, e, he, hpeers, -⟩ := World.step_of_wp next (holds_body a.oracle a.call other)
      have hself : t.peers a.peer = e.self := by rw [hpeers, Function.update_self]
      rw [hself] at leads keeps ⊢
      rcases he with holds | ⟨rsp, hcall, elects, takes⟩
      · obtain ⟨leads, longer⟩ := holds leads
        obtain ⟨inside, agrees⟩ := ih leads before
        have longer := longer (agrees.placed inside)
        exact ⟨longer.inside, (longer.agrees_iff inside agrees).mpr keeps⟩
      · have finds := last.2
        rw [hcall] at finds
        have agrees := takes.agrees_iff.mpr (finds elects)
        have inside := takes.inside
        obtain ⟨found, -, hold⟩ := takes
        refine ⟨?_, agrees⟩
        rw [show e.self.commitIndex = _ from congrArg Hold.commitIndex hold,
          show e.self.log = _ from congrArg Hold.log hold]
        exact inside
    · obtain ⟨-, e, -, hpeers, -⟩ := World.step_cases next
      rw [hpeers, Function.update_of_ne hne] at leads ⊢
      exact ih leads before

/-- In every state of a run, the `locked_entry_index` of a leader whose steps have left it in step is
-1 exactly when no committed LOCK is unresolved, and otherwise the position of one.
`src/enclave/enclave.cpp:131–143,367–417,605–622`, `src/enclave/raft.cpp:91–128`. -/
theorem lockedEntryIndex_agrees (run : Run cfg C h s) (leads : (s.peers p).role = .leader)
    (inStep : LeadsInStep p h s) : (s.peers p).LockAgrees := by
  obtain ⟨inside, agrees⟩ := run.agrees leads inStep
  exact ((s.peers p).lockAgrees_iff inside).mpr agrees

end

/-- An event with three peers, to which another event with one peer responds. -/
def quad : Config where
  workflow := trio.workflow
  peerMap := [(⟨0, 11⟩, ⟨0, 1⟩), (⟨0, 12⟩, ⟨0, 1⟩), (⟨0, 13⟩, ⟨0, 1⟩), (⟨0, 21⟩, ⟨0, 2⟩)]

/-- A leader commits the LOCK of its attempt; another member learns of it and is elected. -/
def inheritedLock : List Cue × List Cue :=
  ([.tick ⟨0, 11⟩ 1 emptyUid, .tick ⟨0, 12⟩ 1 emptyUid, .tick ⟨0, 13⟩ 1 emptyUid,
    .tick ⟨0, 11⟩ 10000 emptyUid, .deliver ⟨0, 12⟩ 0, .deliver ⟨0, 11⟩ 2, .deliver ⟨0, 12⟩ 3,
    .deliver ⟨0, 11⟩ 5, .start ⟨0, 11⟩ ⟨0, 1⟩ ⟨0, 101⟩, .deliver ⟨0, 11⟩ 8, .deliver ⟨0, 12⟩ 9,
    .deliver ⟨0, 11⟩ 11],
   [.tick ⟨0, 11⟩ 20000 emptyUid, .deliver ⟨0, 12⟩ 13, .tick ⟨0, 12⟩ 20000 emptyUid,
    .deliver ⟨0, 13⟩ 18, .deliver ⟨0, 12⟩ 19, .deliver ⟨0, 13⟩ 21, .deliver ⟨0, 12⟩ 22,
    .tick ⟨0, 12⟩ 30000 emptyUid])

/-- The new leader has the position of the LOCK. -/
theorem inherited_lock_agrees : ∃ h s, Run quad anyStep h s ∧
    (s.peers ⟨0, 12⟩).role = .leader ∧ (s.peers ⟨0, 12⟩).lockedEntryIndex = 1 ∧
      (s.peers ⟨0, 12⟩).LockAgrees := by
  obtain ⟨h, s, run, leads, locked, inStep⟩ := exists_run_of_replay quad anyStep
    (inheritedLock.1 ++ inheritedLock.2)
    (fun h s ↦ (s.peers ⟨0, 12⟩).role = .leader ∧ (s.peers ⟨0, 12⟩).lockedEntryIndex = 1 ∧
      LeadsInStep ⟨0, 12⟩ h s)
    (by decide +kernel)
  exact ⟨h, s, run, leads, locked, lockedEntryIndex_agrees run leads inStep⟩

/-- The leader that has committed it has none. -/
theorem not_lockedEntryIndex_agrees : ¬ ∀ (cfg : Config) (h : Hist) (s : World) (p : Uid),
    Run cfg anyStep h s → (s.peers p).role = .leader → (s.peers p).LockAgrees := by
  intro claim
  let lock : Entry := ⟨1, 1, ⟨0, 1⟩, ⟨0, 11⟩, ⟨⟨0, 101⟩, .lock⟩⟩
  obtain ⟨h, s, run, leads, unset, committed, found, unresolved⟩ := exists_run_of_replay quad anyStep
    inheritedLock.1
    (fun _ s ↦ (s.peers ⟨0, 11⟩).role = .leader ∧ (s.peers ⟨0, 11⟩).lockedEntryIndex = -1 ∧
      (s.peers ⟨0, 11⟩).commitIndex = 1 ∧ (s.peers ⟨0, 11⟩).log[1]? = some lock ∧
      (s.peers ⟨0, 11⟩).lockIsResolved 1 = .ok false)
    (by decide +kernel)
  exact (claim quad h s _ run leads).1.mp unset 1 ⟨committed.ge, lock, found, rfl, unresolved⟩

end TrustedDcr.System
