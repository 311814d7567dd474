import TrustedDcr.System.Releases

/-!
# Checkpoints and the locks below them

A leader looks for unresolved locks from `last_checkpoint` on. Whether that hides one
depends on what a checkpoint may follow: the check before it looks at committed
entries only, and an election takes over the latest checkpoint, committed or not.
Where neither goes wrong, every LOCK below the last checkpoint is resolved.
-/

namespace TrustedDcr.System
open TrustedDcr.Msg TrustedDcr.Dcr TrustedDcr.Enclave TrustedDcr.Theory

/-! ### Logs -/

/-- Every LOCK below a checkpoint is freed up to it. -/
def ChecksFreed (log : List Entry) : Prop :=
  ∀ (k i : Nat) (check lock : Entry), i < k → log[k]? = some check → check.tag.type = .checkpoint →
    log[i]? = some lock → lock.tag.type = .lock → Freed log k i lock

private theorem ChecksFreed.of_isPrefix {l l' : List Entry} (hp : l' <+: l) (h : ChecksFreed l) :
    ChecksFreed l' := by
  intro k i check lock hik hcheck type hlock isLock
  obtain ⟨j, e, hij, hjk, he, free⟩ := h k i check lock hik (getElem?_of_isPrefix hp hcheck) type
    (getElem?_of_isPrefix hp hlock) isLock
  have hk := (List.getElem?_eq_some_iff.mp hcheck).1
  rw [getElem?_eq_of_isPrefix hp (by omega)] at he
  exact ⟨j, e, hij, hjk, he, free⟩

private theorem ChecksFreed.append {l : List Entry} (h : ChecksFreed l) {e : Entry}
    (freed : e.tag.type = .checkpoint → ∀ (i : Nat) (lock : Entry), l[i]? = some lock →
      lock.tag.type = .lock → Freed (l ++ [e]) l.length i lock) : ChecksFreed (l ++ [e]) := by
  intro k i check lock hik hcheck type hlock isLock
  have hk := (List.getElem?_eq_some_iff.mp hcheck).1
  have hpre : l <+: l ++ [e] := List.prefix_append _ _
  rw [List.length_append, List.length_singleton] at hk
  rw [getElem?_eq_of_isPrefix hpre (by omega)] at hlock
  rcases getElem?_concat_cases hcheck with ⟨-, hcheck⟩ | ⟨rfl, rfl⟩
  · exact (h k i check lock hik hcheck type hlock isLock).mono hpre (Nat.le_refl _)
  · exact freed type i lock hlock isLock

/-! ### Leaders -/

/-- The last checkpoint of a leader is one. Where it is not committed, the committed LOCKs are freed,
and there are LOCKs between only if it is from before the election. -/
structure Guarded (v : Scan) : Prop where
  inside : v.commitIndex < v.log.length
  points : ∃ e, v.log[v.lastCheckpoint]? = some e ∧ e.tag.type = .checkpoint
  freed : v.commitIndex < v.lastCheckpoint → ∀ (i : Nat) (lock : Entry), i ≤ v.commitIndex →
    v.log[i]? = some lock → lock.tag.type = .lock → Freed v.log v.commitIndex i lock
  waits : ∀ (i : Nat) (lock e : Entry), v.commitIndex < i → i < v.lastCheckpoint →
    v.log[i]? = some lock → lock.tag.type = .lock → v.log[v.lastCheckpoint]? = some e →
    e.term < v.term

/-- The checkpoint stays, or moves to one of the committed. -/
theorem markAll_cases (last : Nat) (entries : List Entry) : markAll last entries = last ∨
    ∃ e ∈ entries, e.tag.type = .checkpoint ∧ markAll last entries = e.index := by
  induction entries generalizing last with
  | nil => exact Or.inl rfl
  | cons e entries ih =>
    rw [markAll_cons]
    rcases ih (if e.tag.type = .checkpoint then e.index else last) with h | ⟨f, hf, type, h⟩
    · rw [h]
      by_cases type : e.tag.type = .checkpoint
      · rw [if_pos type]
        exact Or.inr ⟨e, List.mem_cons_self, type, rfl⟩
      · rw [if_neg type]
        exact Or.inl rfl
    · exact Or.inr ⟨f, List.mem_cons_of_mem _ hf, type, h⟩

/-- The entries of a section are at their positions. -/
theorem getElem?_of_mem_section {log : List Entry} (indexed : Indexed log) {i j : Nat} {e : Entry}
    (h : e ∈ (log.take (j + 1)).drop i) : i ≤ e.index ∧ e.index ≤ j ∧ log[e.index]? = some e := by
  obtain ⟨n, hn⟩ := List.mem_iff_getElem?.mp h
  rw [List.getElem?_drop, List.getElem?_take] at hn
  split at hn
  · next hlt =>
    rw [indexed _ _ hn]
    exact ⟨by omega, by omega, hn⟩
  · exact nomatch hn

namespace Guarded

variable {v w : Scan}

/-- The LOCKs below the last checkpoint are freed up to the commit index. -/
theorem freed_below (h : Guarded v) (checks : ChecksFreed v.log) {i : Nat} {lock : Entry}
    (below : i < v.lastCheckpoint) (committed : i ≤ v.commitIndex) (found : v.log[i]? = some lock)
    (isLock : lock.tag.type = .lock) : Freed v.log v.commitIndex i lock := by
  rcases Nat.lt_or_ge v.commitIndex v.lastCheckpoint with ahead | behind
  · exact h.freed ahead i lock committed found isLock
  · obtain ⟨check, hcheck, type⟩ := h.points
    exact (checks _ i check lock below hcheck type found isLock).mono List.prefix_rfl behind

/-- A mark keeps the locks below the last checkpoint. -/
theorem mark (h : Guarded v) (checks : ChecksFreed v.log) (ordered : WellFormed v.term v.log)
    (move : Mark v w) : Guarded w := by
  cases move with
  | append e leads =>
    obtain ⟨check, hcheck, -⟩ := h.points
    have hlast := (List.getElem?_eq_some_iff.mp hcheck).1
    have hpre : v.log <+: v.log ++ [e] := List.prefix_append _ _
    constructor
    case inside =>
      dsimp only
      rw [List.length_append]
      exact Nat.lt_add_right _ h.inside
    case points =>
      dsimp only
      rw [getElem?_eq_of_isPrefix hpre hlast]
      exact h.points
    case freed =>
      intro ahead i lock committed found isLock
      dsimp only at ahead committed found ⊢
      have := h.inside
      rw [getElem?_eq_of_isPrefix hpre (by omega)] at found
      exact (h.freed ahead i lock committed found isLock).mono hpre (Nat.le_refl _)
    case waits =>
      intro i lock f beyond below found isLock hf
      dsimp only at beyond below found hf ⊢
      rw [getElem?_eq_of_isPrefix hpre (by omega)] at found
      rw [getElem?_eq_of_isPrefix hpre hlast] at hf
      exact h.waits i lock f beyond below found isLock hf
  | @commit index e leads found term ahead =>
    rcases markAll_cases v.lastCheckpoint
        ((v.log.take (index + 1)).drop (v.commitIndex + 1)) with same | ⟨f, hf, type, moved⟩
    · rw [same]
      refine ⟨(List.getElem?_eq_some_iff.mp found).1, h.points, ?_, ?_⟩
      · intro before i lock committed hlock isLock
        dsimp only at before committed hlock ⊢
        rcases Nat.lt_or_ge v.commitIndex i with hi | hi
        · -- The log of the election has no entry of the term, which the new one at `index` has.
          obtain ⟨check, hcheck, -⟩ := h.points
          have older := h.waits i lock check hi (by omega) hlock isLock hcheck
          have newer := ordered.term_mono (Nat.le_of_lt before) found hcheck
          omega
        · exact (h.freed (by omega) i lock hi hlock isLock).mono List.prefix_rfl
            (Nat.le_of_lt ahead)
      · intro i lock f beyond below hlock isLock hf
        exact h.waits i lock f (Nat.lt_trans ahead beyond) below hlock isLock hf
    · obtain ⟨-, hle, hpos⟩ := getElem?_of_mem_section ordered.indexed hf
      rw [moved]
      refine ⟨(List.getElem?_eq_some_iff.mp found).1, ⟨f, hpos, type⟩, ?_, ?_⟩
      · intro before
        dsimp only at before
        omega
      · intro i lock g beyond below
        dsimp only at beyond below
        omega
  | @checkpoint e leads found type clear =>
    refine ⟨h.inside, ⟨e, found, type⟩, ?_, ?_⟩
    · intro ahead i lock committed hlock isLock
      dsimp only at ahead committed hlock ⊢
      rcases Nat.lt_or_ge i v.lastCheckpoint with below | reached
      · exact h.freed_below checks below committed hlock isLock
      · exact (clear ahead).freed i lock reached committed hlock isLock
    · intro i lock f beyond below hlock isLock _
      dsimp only at beyond below hlock
      exact absurd isLock ((clear (by omega)).committed i lock beyond hlock)

/-- Marks only extend the log. -/
theorem isPrefix_of_marks (moves : Relation.ReflTransGen Mark v w) :
    v.log <+: w.log ∧ v.term = w.term := by
  induction moves with
  | refl => exact ⟨List.prefix_rfl, rfl⟩
  | tail _ move ih =>
    cases move with
    | append e => exact ⟨ih.1.trans (List.prefix_append _ _), ih.2⟩
    | commit | checkpoint => exact ih

/-- So does a whole call. -/
theorem marks (h : Guarded v) (moves : Relation.ReflTransGen Mark v w) (checks : ChecksFreed w.log)
    (ordered : WellFormed w.term w.log) : Guarded w := by
  induction moves using Relation.ReflTransGen.head_induction_on with
  | refl => exact h
  | head move rest ih =>
    obtain ⟨hpre, hterm⟩ := isPrefix_of_marks (rest.head move)
    refine ih (h.mark (checks.of_isPrefix hpre) ?_ move)
    rw [hterm]
    exact ordered.of_isPrefix hpre (List.ne_nil_of_length_pos (Nat.zero_lt_of_lt h.inside))

end Guarded

/-! ### Runs -/

/-- Every LOCK has an entry of its event after it that is no LOCK. -/
def AllFreed (log : List Entry) : Prop :=
  ∀ i < log.length, ∀ lock ∈ log[i]?, lock.tag.type = .lock →
    ∃ e ∈ log.drop (i + 1), e.tag.type ≠ .lock ∧ e.event = lock.event

instance (log : List Entry) : Decidable (AllFreed log) := by
  unfold AllFreed
  infer_instance

private theorem AllFreed.freed {log : List Entry} (h : AllFreed log) {i : Nat} {lock : Entry}
    (found : log[i]? = some lock) (isLock : lock.tag.type = .lock) :
    Freed log (log.length - 1) i lock := by
  obtain ⟨e, he, free⟩ := h i (List.getElem?_eq_some_iff.mp found).1 lock found isLock
  obtain ⟨n, hn⟩ := List.mem_iff_getElem?.mp he
  rw [List.getElem?_drop] at hn
  have hlt := (List.getElem?_eq_some_iff.mp hn).1
  exact ⟨i + 1 + n, e, by omega, by omega, hn, free⟩

/-- A checkpoint is appended on a timeout only when no LOCK waits beyond the commit index, and on a
request only when every LOCK is freed with it; and a candidate whose latest checkpoint is not
committed is elected only when its committed LOCKs are freed. -/
def ChecksLocks (s : World) (a : Action) : Prop :=
  match a.call with
  | .setTime ticks => (s.peers a.peer).checkpoints ticks = true → (s.peers a.peer).LocksCommitted
  | .recv (.commandReq req) => req.tag.type = .checkpoint →
      (s.peers a.peer).logsCommand req = true →
        AllFreed ((s.peers a.peer).log ++ [(s.peers a.peer).commandEntry req req.tag])
  | .recv (.electionRsp rsp) => (s.peers a.peer).wins rsp = true →
      (s.peers a.peer).commitIndex < (s.peers a.peer).findLatestCheckpoint →
        AllFreed ((s.peers a.peer).log.take ((s.peers a.peer).commitIndex + 1))
  | _ => True

instance (s : World) (a : Action) : Decidable (ChecksLocks s a) := by
  unfold ChecksLocks
  induction a.call using Call.casesOn with
  | recv m => induction m using Message.casesOn <;> infer_instance
  | _ => infer_instance

/-- Fair elections, and checkpoints that hide no lock. -/
def ChecksFairly (cfg : Config) (h : Hist) (s : World) (a : Action) : Prop :=
  ElectsFairly cfg h s a ∧ ChecksLocks s a

instance (cfg : Config) (h : Hist) (s : World) (a : Action) : Decidable (ChecksFairly cfg h s a) :=
  inferInstanceAs (Decidable (_ ∧ _))

/-- Every call marks the scan of a leader, or elects one. -/
theorem marks_body (o : Oracle) (c : Call) {s : EnclaveState}
    (clear : ∀ ticks, c = .setTime ticks → s.self.checkpoints ticks = true →
      s.self.LocksCommitted) :
    wp (c.body o) (fun _ t ↦ Marks s t ∨ ∃ rsp, c = .recv (.electionRsp rsp) ∧ Wins rsp s t) s := by
  have led {x : Ecall Unit} (h : Along (Led Peer.scan) x) :
      wp x (fun _ t ↦ Marks s t ∨ ∃ rsp, c = .recv (.electionRsp rsp) ∧ Wins rsp s t) s :=
    wp_mono (h s) fun _ _ hst ↦ Or.inl (Marks.of_led hst)
  cases c with
  | setTime ticks =>
    refine wp_mono (marks_setTime ticks s) ?_
    rintro _ t (⟨h, -⟩ | ⟨due, h⟩)
    · exact Or.inl h
    · exact Or.inl (h (clear ticks rfl due))
  | execute event => exact led (apart_scan.led_execute event)
  | getHistory => exact led apart_scan.led_getHistory
  | recv msg =>
    cases msg with
    | commandReq req => exact wp_mono (alongCalls_marks.recvCommandReq true req) fun _ _ h ↦ Or.inl h
    | commandRsp rsp => exact wp_mono (marks_recvCommandRsp true rsp s) fun _ _ h ↦ Or.inl h
    | appendReq req => exact led (apart_scan.led_recvAppendReq true req)
    | appendRsp rsp => exact wp_mono (marks_recvAppendRsp true rsp s) fun _ _ h ↦ Or.inl h
    | pollReq req => exact led (led_recvPollReq true req)
    | pollRsp rsp => exact led (apart_scan.led_recvPollRsp true rsp)
    | electionReq req => exact led (apart_scan.led_recvElectionReq true req)
    | electionRsp rsp =>
      exact wp_mono (marks_recvElectionRsp true rsp s) fun _ _ h ↦ h.imp_right fun w ↦ ⟨rsp, rfl, w⟩
    | logReq req => exact led (led_recvLogReq true req)
    | logRsp rsp => exact led (apart_scan.led_recvLogRsp true rsp)

/-- A peer starts with the first position for its last checkpoint. -/
theorem configured_lastCheckpoint (cfg : Config) (id : Uid) :
    (configured cfg id).lastCheckpoint = 0 := by
  have start : wp (configureEnclave silent id cfg.workflow cfg.peerMap)
      (fun _ t ↦ t.self.lastCheckpoint = 0) ⟨Peer.zero, [], [], []⟩ := by
    unfold configureEnclave
    refine wp_bind_modifySelf fun t ht ↦ ?_
    have hlog : t.self.log = [getEmptyEntry] := by
      rw [ht]
      rfl
    have hlast : t.self.lastCheckpoint = 0 := by rw [ht]
    clear ht
    rw [wp_bind, wp_getSelf]
    refine wp_bind_along (apart_scan.leaderMapAt _) fun leader u hu ↦ wp_bind_modifySelf fun v hv ↦ ?_
    rw [wp_ite]
    constructor
    · intro _
      refine wp_mono (becomeLeader_scan v) fun _ w ⟨hw, _⟩ ↦ ?_
      have log : v.self.log = [getEmptyEntry] := by
        rw [hv]
        exact (congrArg Scan.log hu).trans hlog
      rw [show w.self.lastCheckpoint = v.self.findLatestCheckpoint from
        congrArg Scan.lastCheckpoint hw]
      unfold Peer.findLatestCheckpoint
      rw [log]
      rfl
    · intro _
      rw [wp_pure, hv]
      exact (congrArg Scan.lastCheckpoint hu).trans hlast
  obtain ⟨a, t, hrun, -⟩ := runs_configureEnclave cfg id
  unfold configured
  rw [hrun]
  exact start a t hrun

section
variable {cfg : Config} {h : Hist} {s : World} {x p : Uid}

/-- The log of a candidate is older than its term. -/
theorem Run.candidate_term (run : Run cfg (ElectsFairly cfg) h s) (hp : p ∈ cfg.cluster x)
    (stands : (s.peers p).role = .candidate) : ∀ e ∈ (s.peers p).log, e.term < (s.peers p).term := by
  have run' : Run cfg (fun h s a ↦ ElectsFairly cfg h s a ∧ (False → CommitsConfirmed h s a)) h s :=
    run.mono fun _ _ _ hfair ↦ ⟨hfair, False.elim⟩
  obtain ⟨g, tracked⟩ := run'.tracked x
  have mirrors := tracked.sim.peers p hp
  have role : g.role p = .candidate := by
    rw [mirrors.role, Role.raft_eq_candidate]
    exact stands
  have older := tracked.sim.sound.self_vote (tracked.sim.sound.standing role)
  rw [mirrors.term, mirrors.log] at older
  exact older

/-- The winner of an election. -/
theorem Guarded.wins {p : Peer} (ordered : WellFormed p.term p.log)
    (older : ∀ e ∈ p.log, e.term < p.term) {found : Option Nat}
    (scanned : p.elected.hasUnresolvedLock = .ok found)
    (freed : p.commitIndex < p.findLatestCheckpoint → AllFreed (p.log.take (p.commitIndex + 1))) :
    Guarded { p.elected.scan with role := .leader } := by
  have points : ∃ e, p.log[p.findLatestCheckpoint]? = some e ∧ e.tag.type = .checkpoint := by
    rcases Peer.latestCheckpointBelow_spec p.log p.log.length with zero | latest
    · refine ⟨getEmptyEntry, ?_, rfl⟩
      unfold Peer.findLatestCheckpoint
      rw [zero, ordered.root]
    · exact latest
  obtain ⟨check, hcheck, type⟩ := points
  have inside : p.commitIndex < p.log.length :=
    Peer.inside_of_hasUnresolvedLock (p := p.elected) scanned fun _ ↦
      (List.getElem?_eq_some_iff.mp hcheck).1
  refine ⟨inside, ⟨check, hcheck, type⟩, fun ahead i lock committed hlock isLock ↦ ?_, ?_⟩
  · have committed : i ≤ p.commitIndex := committed
    have taken : (p.log.take (p.commitIndex + 1))[i]? = some lock := by
      rw [List.getElem?_take, if_pos (by omega)]
      exact hlock
    refine ((freed ahead).freed taken isLock).mono (List.take_prefix _ _) ?_
    dsimp only [Peer.scan, Peer.elected]
    rw [List.length_take]
    omega
  · intro i lock e _ _ _ _ he
    exact older e (List.mem_of_getElem? he)

/-- Where LOCKs below checkpoints are freed, all leaders are guarded. -/
theorem Run.guarded (run : Run cfg (ChecksFairly cfg) h s)
    (checks : ∀ s' ∈ states h s, ∀ p ∈ cfg.cluster x, ChecksFreed (s'.peers p).log)
    (hp : p ∈ cfg.cluster x) (leads : (s.peers p).role = .leader) : Guarded (s.peers p).scan := by
  induction run with
  | initial =>
    have fresh := (fresh_configured cfg p).node
    have hlog : ((World.initial cfg).peers p).log = [getEmptyEntry] := congrArg Node.log fresh
    have hcommit : ((World.initial cfg).peers p).commitIndex = 0 := congrArg Node.commitIndex fresh
    have hlast : ((World.initial cfg).peers p).lastCheckpoint = 0 := configured_lastCheckpoint cfg p
    unfold Peer.scan
    rw [hlog, hcommit, hlast]
    refine ⟨Nat.one_pos, ⟨getEmptyEntry, rfl, rfl⟩, fun ahead ↦ absurd ahead (Nat.lt_irrefl 0), ?_⟩
    exact fun i _ _ _ below ↦ absurd below (Nat.not_lt_zero i)
  | @step h s t a run meets next ih =>
    have fair : Run cfg (ElectsFairly cfg) h s := run.mono fun _ _ _ hm ↦ hm.1
    have before := ih fun s' hs' ↦ checks s' (List.mem_cons_of_mem _ hs')
    have after : Run cfg (ElectsFairly cfg) ((s, a) :: h) t := fair.step meets.1 next
    have clear : ∀ ticks, a.call = .setTime ticks → (s.peers a.peer).checkpoints ticks = true →
        (s.peers a.peer).LocksCommitted := by
      intro ticks hcall due
      have checksLocks := meets.2
      unfold ChecksLocks at checksLocks
      rw [hcall] at checksLocks
      exact checksLocks due
    obtain ⟨-, e, he, hpeers, -⟩ :=
      World.step_of_wp next (marks_body a.oracle a.call (s := s.enclave a.peer) clear)
    by_cases hne : p = a.peer
    · subst hne
      have hself : t.peers a.peer = e.self := by rw [hpeers, Function.update_self]
      have ordered := (after.mono fun _ _ _ hm ↦ hm.1).ordered.logs a.peer
      have final := checks t List.mem_cons_self _ hp
      rw [hself] at leads ordered final ⊢
      rcases he with marks | ⟨rsp, hcall, wins⟩
      · obtain ⟨led, marks⟩ := marks leads
        have guarded := before led
        exact guarded.marks (marks guarded.inside).2 final ordered
      · have stood : (s.peers a.peer).role = .candidate := by
          have elects : (s.peers a.peer).wins rsp = true := wins.elects
          unfold Peer.wins at elects
          simp only [Bool.and_eq_true, beq_iff_eq] at elects
          exact elects.1.1.2
        obtain ⟨found, scanned⟩ := wins.scanned
        rw [wins.scan]
        refine Guarded.wins ((fair.mono fun _ _ _ hm ↦ hm.1).ordered.logs a.peer)
          (fair.candidate_term hp stood) scanned fun ahead ↦ ?_
        have checksLocks := meets.2
        unfold ChecksLocks at checksLocks
        rw [hcall] at checksLocks
        exact checksLocks wins.elects ahead
    · rw [hpeers, Function.update_of_ne hne] at leads ⊢
      exact before leads

/-- The log with the checkpoint that a leader appends has all LOCKs below it freed. -/
theorem ChecksLocks.freed {a : Action} {e : Entry} (checksLocks : ChecksLocks s a)
    (appends : (s.peers a.peer).appends a.oracle a.call = some e)
    (checks : ChecksFreed (s.peers a.peer).log)
    (guarded : (s.peers a.peer).role = .leader → Guarded (s.peers a.peer).scan) :
    ChecksFreed ((s.peers a.peer).log ++ [e]) := by
  refine checks.append fun type i lock found isLock ↦ ?_
  unfold ChecksLocks at checksLocks
  unfold Peer.appends at appends
  cases hcall : a.call with
  | execute | getHistory =>
    rw [hcall] at appends
    exact nomatch appends
  | setTime ticks =>
    rw [hcall] at appends checksLocks
    dsimp only at appends checksLocks
    split at appends
    · next due =>
      obtain ⟨leads, scanned⟩ := Peer.scanned_of_checkpoints due
      have guarded := guarded leads
      have inside : (s.peers a.peer).commitIndex < (s.peers a.peer).log.length := guarded.inside
      have freed : Freed (s.peers a.peer).log (s.peers a.peer).commitIndex i lock := by
        rcases Nat.lt_or_ge (s.peers a.peer).commitIndex i with beyond | committed
        · have hi := (List.getElem?_eq_some_iff.mp found).1
          exact absurd isLock (checksLocks due i hi beyond lock found)
        · rcases Nat.lt_or_ge i (s.peers a.peer).lastCheckpoint with below | reached
          · exact guarded.freed_below checks below committed found isLock
          · exact Peer.freed_of_hasUnresolvedLock scanned reached committed found isLock
      exact freed.mono (List.prefix_append _ _) (Nat.le_of_lt inside)
    · exact nomatch appends
  | recv msg =>
    rw [hcall] at appends checksLocks
    cases msg with
    | commandReq req =>
      dsimp only at appends checksLocks
      split at appends
      · -- What is admitted is a LOCK or an execution.
        next admitted =>
        obtain rfl := Option.some.inj appends
        have lock : req.tag.type = .lock := by
          unfold Peer.admitsLock at admitted
          simp only [Bool.and_eq_true, beq_iff_eq] at admitted
          exact admitted.1.1.2
        unfold Peer.commandEntry at type
        dsimp only at type
        split at type
        · exact nomatch type
        · rw [lock] at type
          exact nomatch type
      · split at appends
        · next logs =>
          obtain rfl := Option.some.inj appends
          have freed := (checksLocks type logs).freed
            (getElem?_of_isPrefix (List.prefix_append _ _) found) isLock
          rwa [List.length_append, List.length_singleton, Nat.add_sub_cancel] at freed
        · exact nomatch appends
    | commandRsp rsp =>
      dsimp only at appends
      split at appends
      · obtain rfl := Option.some.inj appends
        exact nomatch type
      · split at appends
        · obtain rfl := Option.some.inj appends
          exact nomatch type
        · exact nomatch appends
    | _ => exact nomatch appends

/-- No log has a LOCK below a checkpoint that is not freed before it. -/
theorem Run.checksFreed (run : Run cfg (ChecksFairly cfg) h s) (x : Uid) :
    ∀ s' ∈ states h s, ∀ p ∈ cfg.cluster x, ChecksFreed (s'.peers p).log := by
  refine run.grown (Φ := ChecksFreed) (fun _ _ _ fair ↦ fair.1) (fun _ _ ↦ .of_isPrefix) ?_ ?_
  · intro k i check lock hik hcheck
    have := (List.getElem?_eq_some_iff.mp hcheck).1
    simp at this
    omega
  · intro h s a t run meets _ member e appends checks
    exact meets.2.freed appends (checks s List.mem_cons_self _ member) (run.guarded checks member)

/-- The scan of a leader from its last checkpoint finds an unresolved lock exactly when a full scan
does, and every LOCK below that checkpoint counts as resolved, in every state of a run in which
checkpoints hide no lock. `src/enclave/raft.cpp:104–156`, `src/enclave/enclave.cpp:224–237,367–376`. -/
theorem checkpoint_hides_no_lock (run : Run cfg (ChecksFairly cfg) h s)
    (hp : p ∈ cfg.peerToEventMap) (leads : (s.peers p).role = .leader) :
    ((∃ i, (s.peers p).hasUnresolvedLock = .ok (some i)) ↔ ∃ i lock, i ≤ (s.peers p).commitIndex ∧
      (s.peers p).log[i]? = some lock ∧ lock.tag.type = .lock ∧
        (s.peers p).lockIsResolved i = .ok false) ∧
    ∀ i lock, i < (s.peers p).lastCheckpoint → i ≤ (s.peers p).commitIndex →
      (s.peers p).log[i]? = some lock → lock.tag.type = .lock →
        (s.peers p).lockIsResolved i = .ok true := by
  have member := Config.mem_cluster_clusterOf hp
  have checks := run.checksFreed (cfg.clusterOf p)
  have guarded := run.guarded checks member leads
  have resolved : ∀ i lock, i < (s.peers p).lastCheckpoint → i ≤ (s.peers p).commitIndex →
      (s.peers p).log[i]? = some lock → lock.tag.type = .lock →
        (s.peers p).lockIsResolved i = .ok true := by
    intro i lock below committed found isLock
    rw [(s.peers p).lockIsResolved_iff_freed found isLock]
    exact guarded.freed_below (checks s List.mem_cons_self p member) below committed found isLock
  refine ⟨?_, resolved⟩
  rw [Peer.exists_hasUnresolvedLock_iff guarded.inside]
  constructor
  · rintro ⟨i, lock, -, committed, found, isLock, unresolved⟩
    exact ⟨i, lock, committed, found, isLock, unresolved⟩
  · rintro ⟨i, lock, committed, found, isLock, unresolved⟩
    refine ⟨i, lock, ?_, committed, found, isLock, unresolved⟩
    by_contra below
    rw [resolved i lock (by omega) committed found isLock] at unresolved
    exact nomatch unresolved

end

/-- A checkpoint after an executed attempt, below which its LOCK counts as resolved. -/
theorem trio_checkpoint_hides_no_lock : ∃ h s, Run trio (ChecksFairly trio) h s ∧
    (s.peers ⟨0, 11⟩).lastCheckpoint = 3 ∧ (s.peers ⟨0, 11⟩).commitIndex = 2 ∧
      (s.peers ⟨0, 11⟩).lockIsResolved 1 = .ok true := by
  let lock : Entry := ⟨1, 1, ⟨0, 1⟩, ⟨0, 11⟩, ⟨⟨0, 101⟩, .lock⟩⟩
  obtain ⟨h, s, run, hp, leads, hlast, hc, found⟩ := exists_run_of_replay trio (ChecksFairly trio)
    (rushedCheckpoint.1.take 17 ++ [.tick ⟨0, 11⟩ 20000 ⟨0, 103⟩])
    (fun _ s ↦ ⟨0, 11⟩ ∈ trio.peerToEventMap ∧ (s.peers ⟨0, 11⟩).role = .leader ∧
      (s.peers ⟨0, 11⟩).lastCheckpoint = 3 ∧ (s.peers ⟨0, 11⟩).commitIndex = 2 ∧
      (s.peers ⟨0, 11⟩).log[1]? = some lock)
    (by decide +kernel)
  exact ⟨h, s, run, hlast, hc, (checkpoint_hides_no_lock run hp leads).2 1 lock
    (by rw [hlast]; decide) (by rw [hc]; decide) found rfl⟩

/-- A LOCK that is committed after a checkpoint was appended behind it is not found. -/
theorem not_checkpoint_hides_no_lock : ¬ ∀ (cfg : Config) (h : Hist) (s : World) (p : Uid),
    Run cfg anyStep h s → p ∈ cfg.peerToEventMap → (s.peers p).role = .leader →
    ((∃ i, (s.peers p).hasUnresolvedLock = .ok (some i)) ↔ ∃ i lock,
      i ≤ (s.peers p).commitIndex ∧ (s.peers p).log[i]? = some lock ∧ lock.tag.type = .lock ∧
        (s.peers p).lockIsResolved i = .ok false) := by
  intro claim
  let lock : Entry := ⟨3, 1, ⟨0, 1⟩, ⟨0, 11⟩, ⟨⟨0, 102⟩, .lock⟩⟩
  obtain ⟨h, s, run, hp, leads, hc, found, unresolved, scanned⟩ := exists_run_of_replay trio anyStep
    rushedCheckpoint.1
    (fun _ s ↦ ⟨0, 11⟩ ∈ trio.peerToEventMap ∧ (s.peers ⟨0, 11⟩).role = .leader ∧
      (s.peers ⟨0, 11⟩).commitIndex = 3 ∧ (s.peers ⟨0, 11⟩).log[3]? = some lock ∧
      (s.peers ⟨0, 11⟩).lockIsResolved 3 = .ok false ∧
      (s.peers ⟨0, 11⟩).hasUnresolvedLock = .ok none)
    (by decide +kernel)
  obtain ⟨i, hi⟩ := (claim trio h s _ run hp leads).mpr ⟨3, lock, hc.ge, found, rfl, unresolved⟩
  rw [scanned] at hi
  exact nomatch hi

end TrustedDcr.System
