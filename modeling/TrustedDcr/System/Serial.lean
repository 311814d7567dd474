import Mathlib.Data.List.Permutation
import TrustedDcr.Dcr.Locks
import TrustedDcr.System.Execution

/-!
# The global order of executions

The executions that the clusters of their events commit, in the order in which
they do, are a run of the workflow, and no log has two of them in another order:
every step of a run extends the book of all ledgers by notes that fit. This rests
on what `ExecutesInOrder` asks of the steps; a single refusal that is counted as a
grant is enough to lose it.
-/

namespace TrustedDcr.System
open TrustedDcr.Msg TrustedDcr.Dcr TrustedDcr.Dcr.DcrWorkflow TrustedDcr.Enclave
open TrustedDcr.Theory TrustedDcr.Theory.Dcr

/-- Every event has a peer, and every peer an event. -/
def Config.Populated (cfg : Config) : Prop :=
  (∀ x ∈ cfg.workflow.eventIds, cfg.members x ≠ []) ∧
    ∀ p ∈ cfg.peerToEventMap.keys, cfg.clusterOf p ∈ cfg.workflow.eventIds

instance (cfg : Config) : Decidable cfg.Populated := inferInstanceAs (Decidable (_ ∧ _))

/-- A cluster with a member is that of an event of the workflow. -/
theorem Config.Populated.declared {cfg : Config} (h : cfg.Populated) {x p : Uid}
    (hp : p ∈ cfg.cluster x) : x ∈ cfg.workflow.eventIds := by
  rw [← Config.clusterOf_of_mem hp]
  exact h.2 p (Std.ExtTreeMap.mem_keys.mpr (Config.mem_of_mem_cluster hp))

/-- The graph of the workflow. -/
def Config.graph (cfg : Config) : Graph Uid := (makeWorkflow cfg.workflow).graph

/-- The marking the workflow starts with. -/
def Config.marking (cfg : Config) : Marking Uid := (makeWorkflow cfg.workflow).marking

/-! ### What a leader knows -/

section
variable {cfg : Config} {C : Hist → World → Action → Prop} {h : Hist} {s t : World} {a : Action}

/-- A peer stays with its event. -/
theorem Run.clusterEvent (run : Run cfg C h s) (p : Uid) :
    (s.peers p).clusterEvent = cfg.clusterOf p := by
  induction run with
  | initial => exact (fresh_configured cfg p).clusterEvent
  | @step h s t a run meets next ih =>
    obtain ⟨-, e, goes, hpeers, -⟩ := World.step_cases next
    rw [hpeers]
    rcases eq_or_ne p a.peer with rfl | hp
    · rw [Function.update_self]
      exact goes.locked.clusterEvent.trans ih
    · rwa [Function.update_of_ne hp]

/-- An event that its replica holds enabled is enabled after what was committed to it. -/
theorem enabledAfter_of_replica {p : Peer} (replica : Replica cfg p.node p.workflow) {y : Uid}
    (declared : ∀ x ∈ executed p.node.committed, x.1 ∈ cfg.workflow.eventIds)
    (hy : y ∈ cfg.workflow.eventIds) (enabled : (p.workflow.isEventEnabled y).1 = true) :
    EnabledAfter cfg.graph cfg.marking (notes p.node.committed) y := by
  have hreads : SameReads (executeEntries (makeWorkflow cfg.workflow) p.node.committed)
    p.workflow := replica
  rw [executeEntries_eq] at hreads
  have hevents : ∀ e ∈ (executed p.node.committed).map Prod.fst, e ∈ cfg.workflow.eventIds := by
    intro e he
    obtain ⟨x, hx, rfl⟩ := List.mem_map.mp he
    exact declared x hx
  obtain ⟨hwf, hgraph, hmarking⟩ :=
    (makeWorkflow_wellFormed cfg.workflow).foldl_setEventExecuted hevents
  have henabled := (isEventEnabled_iff (hreads.wellFormed hwf) hy).mp enabled
  rwa [hreads.graph.graph_eq, hreads.marking_eq, hgraph, hmarking] at henabled

/-- The lock set in a replica is that of the graph. -/
theorem mem_getLockSet_of_replica {p : Peer} (replica : Replica cfg p.node p.workflow) (x y : Uid) :
    y ∈ p.workflow.getLockSet x ↔ y ∈ lockSet cfg.graph x := by
  have hgraph := (sameGraph_executeEntries _ _).trans replica.graph
  rw [mem_getLockSet, hgraph.graph_eq]
  rfl

private theorem settled_notes {log : List Entry}
    (h : ∀ e ∈ log, e.tag.type = .lock → (e.event, e.tag.uid) ∈ executed log) :
    Settled (notes log) := by
  intro x hx
  obtain ⟨e, he, hnote⟩ := List.mem_filterMap.mp hx
  obtain ⟨hlock, rfl⟩ := note_eq_lock hnote
  exact mem_execs.mp (h e he hlock)

/-- Under the conditions on steps, what a leader appends fits its ledger. -/
theorem fits_of_appended (populated : cfg.Populated) (run : Run cfg (ExecutesInOrder cfg) h s)
    (meets : ExecutesInOrder cfg h s a) {y : Uid} (member : a.peer ∈ cfg.cluster y) {e : Entry}
    (appended : Appended s a t e)
    (orderly : Orderly cfg.graph cfg.marking (book cfg h s) y (notes (s.peers a.peer).log))
    {n : Note Uid Uid} (hn : note e = some n) :
    Fits cfg.graph cfg.marking (book cfg h s) y (notes (s.peers a.peer).log) n := by
  have run' : Run cfg (CommitsSafely cfg) h s := run.mono fun _ _ _ hm ↦ hm.1
  obtain ⟨-, settles, locks, informs⟩ := meets
  obtain ⟨ds, origin, -⟩ := appended
  have hevent : (s.peers a.peer).clusterEvent = y :=
    (run.clusterEvent a.peer).trans (Config.clusterOf_of_mem member)
  have replica : Replica cfg (s.peers a.peer).node (s.peers a.peer).workflow := by
    obtain ⟨g, tracked⟩ := run'.tracked_safe y
    exact tracked.replica trivial _ member
  have hy := populated.declared member
  have declared : ∀ x ∈ executed (s.peers a.peer).log, x.1 ∈ cfg.workflow.eventIds := by
    intro x hx
    rcases orderly.exec_cases (mem_execs.mp hx) with rfl | hx
    · exact hy
    · obtain ⟨p, hp⟩ := exists_mem_cluster_of_execution run' hx
      exact populated.declared hp
  -- what the replica has not executed yet does not lock the event
  have enabled (hup : ∀ e ∈ (s.peers a.peer).log.drop ((s.peers a.peer).commitIndex + 1),
        e.tag.type = .exec → y ∉ (s.peers a.peer).workflow.getLockSet e.event)
      (h : ((s.peers a.peer).workflow.isEventEnabled y).1 = true) :
      EnabledAfter cfg.graph cfg.marking (notes (s.peers a.peer).log) y := by
    rw [← List.take_append_drop ((s.peers a.peer).commitIndex + 1) (s.peers a.peer).log] at declared ⊢
    rw [notes_append]
    refine (enabledAfter_of_replica replica (fun x hx ↦ declared x ?_) hy h).append fun x hx ↦ ?_
    · exact (execs_sublist (notes_isPrefix (List.prefix_append _ _))).subset hx
    · obtain ⟨e, he, hnote⟩ := List.mem_filterMap.mp (mem_execs.mp hx)
      obtain ⟨hexec, rfl⟩ := note_eq_exec hnote
      exact fun hlock ↦ hup e he hexec ((mem_getLockSet_of_replica replica _ _).mpr hlock)
  cases origin with
  | @request req received addressed leads fresh lock =>
    cases htype : req.tag.type with
    | lock =>
      obtain rfl : .lock (req.event, req.tag.uid) = n := by simpa [note, htype] using hn
      obtain ⟨admitted, -⟩ := lock htype
      unfold AdmitsSettled at settles
      rw [Call.eq_recv received] at settles
      obtain ⟨settled, own⟩ := settles admitted
      refine .lock (settled_notes settled) fun he ↦ ?_
      have hown := he.trans hevent.symm
      refine enabled (he ▸ (own hown).1) ?_
      rw [← hevent]
      exact Peer.enabled_of_admitsLock admitted hown
    | exec =>
      obtain rfl : .exec (req.event, req.tag.uid) = n := by simpa [note, htype] using hn
      unfold InformsInOrder at informs
      rw [Call.eq_recv received] at informs
      obtain ⟨foreign, inOrder⟩ := informs addressed leads fresh htype
      exact .informed (hevent ▸ foreign) inOrder
    | abort | checkpoint =>
      unfold note at hn
      rw [htype] at hn
      cases hn
  | @immediate req received admitted atOnce =>
    obtain ⟨hown, hfree⟩ := Bool.and_eq_true_iff.mp atOnce
    have hown : req.event = (s.peers a.peer).clusterEvent := (uidsEqual_iff _ _).mp hown
    unfold AdmitsSettled at settles
    rw [Call.eq_recv received] at settles
    obtain ⟨settled, own⟩ := settles admitted
    obtain ⟨hup, fresh⟩ := own hown
    have henabled := Peer.enabled_of_admitsLock admitted hown
    rw [hevent] at hown henabled
    obtain rfl : .exec (req.event, req.tag.uid) = n := Option.some.inj hn
    rw [hown] at hup fresh hfree ⊢
    refine .free (fun hx ↦ fresh (mem_execs.mpr hx)) (settled_notes settled)
      (enabled hup henabled) (Set.eq_empty_iff_forall_notMem.mpr fun z hz ↦ ?_)
    have hz := (mem_getLockSet_of_replica replica y z).mpr hz
    rw [Std.ExtTreeSet.eq_empty_iff_size_eq_zero.mpr (beq_iff_eq.mp hfree)] at hz
    exact Std.ExtTreeSet.not_mem_empty hz
  | @executed rsp received complete =>
    unfold ExecutesLocked at locks
    rw [Call.eq_recv received] at locks
    obtain ⟨fresh, own, held⟩ := locks complete
    obtain rfl : .exec ((s.peers a.peer).clusterEvent, rsp.tag.uid) = n := Option.some.inj hn
    rw [hevent] at fresh own held ⊢
    refine .locked (fun hx ↦ fresh (mem_execs.mpr hx)) own fun z hz ↦ held z ?_
    exact Std.ExtTreeSet.mem_toList.mpr ((mem_getLockSet_of_replica replica y z).mpr hz)
  | aborted | checkpoint => cases hn

/-! ### Every run extends the book by notes that fit -/

/-- The book before the last step. -/
def past (cfg : Config) : Hist → Book Uid Uid
  | [] => Book.empty
  | (s, _) :: h => book cfg h s

private theorem past_below (run : Run cfg (CommitsSafely cfg) h s) :
    (past cfg h).Below (book cfg h s) := by
  cases run with
  | initial => exact ⟨fun _ ↦ List.nil_prefix, List.nil_prefix⟩
  | step run meets next =>
    obtain ⟨new, hnew, -⟩ := run.ledger_step meets next
    rw [book_step hnew]
    exact Book.below_extend _ _ _

/-- All logs of a cluster are orderly. -/
theorem Run.orderly (populated : cfg.Populated) (run : Run cfg (ExecutesInOrder cfg) h s) {y p : Uid}
    (hp : p ∈ cfg.cluster y) :
    Orderly cfg.graph cfg.marking (past cfg h) y (notes (s.peers p).log) := by
  refine run.logs (Φ := fun h _ l ↦ Orderly cfg.graph cfg.marking (past cfg h) y (notes l))
    (fun _ _ _ hm ↦ hm.1.1) (fun _ _ ↦ Orderly.nil)
    (fun _ _ _ _ hpre ↦ Orderly.of_isPrefix (notes_isPrefix hpre)) Orderly.nil ?_ ?_ hp
  · intro h s a t run _ _ l hl
    exact hl.mono (past_below (run.mono fun _ _ _ hm ↦ hm.1))
  · intro h s a t run meets next member e he hl
    have hl := hl.mono (past_below (run.mono fun _ _ _ hm ↦ hm.1))
    rw [notes_append]
    cases hn : note e with
    | none =>
      rw [show notes [e] = [] by simp [notes, hn], List.append_nil]
      exact hl
    | some n =>
      rw [show notes [e] = [n] by simp [notes, hn]]
      exact hl.append (fits_of_appended populated run meets member he hl hn)

/-- The book of every run is serial. -/
theorem Run.serial (populated : cfg.Populated) (run : Run cfg (ExecutesInOrder cfg) h s) :
    Serial cfg.graph cfg.marking (book cfg h s) := by
  induction run with
  | initial => exact Serial.empty
  | @step h s t a run meets next ih =>
    obtain ⟨new, hnew, hcommitted⟩ :=
      (run.mono fun _ _ _ hm ↦ hm.1).ledger_step meets.1 next
    rw [book_step hnew]
    refine ih.extend ?_
    rcases hcommitted with rfl | hcommitted
    · rw [show notes [] = [] from rfl, List.append_nil]
      exact ih.orderly _
    · have hin := Config.mem_cluster_clusterOf (World.step_cases next).1.1
      have horderly := (run.step meets next).orderly populated hin
      have hpre : notes (ledger cfg (cfg.clusterOf a.peer) h s ++ new) <+:
          notes (t.peers a.peer).log := by
        rw [hcommitted]
        exact notes_isPrefix (List.take_prefix _ _)
      rw [notes_append] at hpre
      exact horderly.of_isPrefix hpre

end

/-! ### The order -/

/-- The execution of event `x` with the identifier `u` was committed by the cluster of `x`. -/
def HasExecuted (cfg : Config) (h : Hist) (s : World) (x u : Uid) : Prop :=
  ∃ t ∈ states h s, ∃ p ∈ cfg.cluster x, (x, u) ∈ executed (t.peers p).node.committed

/-- All executions have one order that is legal and that every committed log keeps to. -/
def Serialised (cfg : Config) (h : Hist) (s : World) : Prop :=
  ∃ order : List (Uid × Uid), order.Nodup ∧
    (∀ x u, (x, u) ∈ order ↔ HasExecuted cfg h s x u) ∧
    (∀ p ∈ cfg.peerToEventMap,
      ((executed (s.peers p).node.committed).filter (· ∈ order)).Sublist order) ∧
    EnabledInTurn (makeWorkflow cfg.workflow) (order.map Prod.fst)

private theorem mem_executions {cfg : Config} {h : Hist} {s : World} (populated : cfg.Populated)
    (run : Run cfg (ExecutesInOrder cfg) h s) (x u : Uid) :
    (x, u) ∈ executions cfg h s ↔ HasExecuted cfg h s x u := by
  have run' : Run cfg (CommitsSafely cfg) h s := run.mono fun _ _ _ hm ↦ hm.1
  have hmem := (run.serial populated).mem_order (x, u)
  constructor
  · intro hx
    obtain ⟨p, hp⟩ := exists_mem_cluster_of_execution run' hx
    obtain ⟨t, ht, q, hq, hledger⟩ := (run'.ledger_spec hp).1
    refine ⟨t, ht, q, hq, mem_execs.mpr ?_⟩
    rw [← hledger]
    exact hmem.mp hx
  · rintro ⟨t, ht, p, hp, hx⟩
    exact hmem.mpr ((notes_isPrefix ((run'.ledger_spec hp).2 t ht p hp)).subset (mem_execs.mp hx))

/-- The executions committed by their own clusters form a legal run of the workflow, in an order
that every committed log keeps to. -/
theorem executions_serialise {cfg : Config} (populated : cfg.Populated) {h : Hist} {s : World}
    (run : Run cfg (ExecutesInOrder cfg) h s) : Serialised cfg h s := by
  have run' : Run cfg (CommitsSafely cfg) h s := run.mono fun _ _ _ hm ↦ hm.1
  have hserial := run.serial populated
  refine ⟨executions cfg h s, hserial.nodup, mem_executions populated run, fun p hp ↦ ?_, ?_⟩
  · have hp := Config.mem_cluster_clusterOf hp
    have hpre := notes_isPrefix ((run'.ledger_spec hp).2 s List.mem_cons_self p hp)
    exact List.filter_sublist.trans ((execs_sublist hpre).trans (hserial.consistent _))
  · have hdeclared : ∀ e ∈ (executions cfg h s).map Prod.fst, e ∈ cfg.workflow.eventIds := by
      intro e he
      obtain ⟨x, hx, rfl⟩ := List.mem_map.mp he
      obtain ⟨p, hp⟩ := exists_mem_cluster_of_execution run' hx
      exact populated.declared hp
    exact ((makeWorkflow_wellFormed cfg.workflow).enabledInTurn_iff hdeclared).mpr hserial.legal

/-- A rival executes with its lock granted, and the other one is told. -/
theorem rivals_executions_serialise : ∃ h s, Run rivals (ExecutesInOrder rivals) h s ∧
    HasExecuted rivals h s ⟨0, 1⟩ ⟨0, 101⟩ ∧
    executed (s.peers ⟨0, 21⟩).node.committed = [(⟨0, 1⟩, ⟨0, 101⟩)] ∧ Serialised rivals h s := by
  obtain ⟨h, s, run, hp, hown, htold⟩ := exists_run_of_replay rivals (ExecutesInOrder rivals)
    [.start ⟨0, 11⟩ ⟨0, 1⟩ ⟨0, 101⟩, .deliver ⟨0, 11⟩ 0, .deliver ⟨0, 21⟩ 1, .deliver ⟨0, 11⟩ 2,
      .deliver ⟨0, 21⟩ 3]
    (fun _ s ↦ ⟨0, 11⟩ ∈ rivals.cluster ⟨0, 1⟩ ∧
      (⟨0, 1⟩, ⟨0, 101⟩) ∈ executed (s.peers ⟨0, 11⟩).node.committed ∧
      executed (s.peers ⟨0, 21⟩).node.committed = [(⟨0, 1⟩, ⟨0, 101⟩)])
    (by decide +kernel)
  exact ⟨h, s, run, ⟨s, List.mem_cons_self, _, hp, hown⟩, htold,
    executions_serialise (by decide +kernel) run⟩

/-- Two rivals refuse each other's locks and both execute, although each excludes the other. -/
theorem not_executions_serialise : ¬ ∀ (cfg : Config) (h : Hist) (s : World), cfg.Populated →
    Run cfg anyStep h s → Serialised cfg h s := by
  intro claim
  let x : Uid × Uid := (⟨0, 1⟩, ⟨0, 101⟩)
  let y : Uid × Uid := (⟨0, 2⟩, ⟨0, 102⟩)
  obtain ⟨h, s, run, hpx, hpy, hx, hy, only⟩ := exists_run_of_replay rivals anyStep
    [.start ⟨0, 11⟩ ⟨0, 1⟩ ⟨0, 101⟩, .deliver ⟨0, 11⟩ 0, .start ⟨0, 21⟩ ⟨0, 2⟩ ⟨0, 102⟩,
      .deliver ⟨0, 21⟩ 2, .deliver ⟨0, 21⟩ 1, .deliver ⟨0, 11⟩ 3, .deliver ⟨0, 11⟩ 4,
      .deliver ⟨0, 21⟩ 5]
    (fun h s ↦ ⟨0, 11⟩ ∈ rivals.cluster x.1 ∧ ⟨0, 21⟩ ∈ rivals.cluster y.1 ∧
      x ∈ executed (s.peers ⟨0, 11⟩).node.committed ∧
      y ∈ executed (s.peers ⟨0, 21⟩).node.committed ∧
      ∀ t ∈ states h s, ∀ p ∈ rivals.peerToEventMap.keys,
        ∀ z ∈ executed (t.peers p).node.committed, z ∈ [x, y])
    (by decide +kernel)
  obtain ⟨order, nodup, mem, -, legal⟩ := claim rivals h s (by decide +kernel) run
  -- the two executions are all there are, and neither event is enabled after the other
  have hperm : order.Perm [x, y] := by
    refine (List.perm_ext_iff_of_nodup nodup (by decide)).mpr fun z ↦ ⟨fun hz ↦ ?_, fun hz ↦ ?_⟩
    · obtain ⟨t, ht, p, hp, hz⟩ := (mem z.1 z.2).mp hz
      exact only t ht p (Std.ExtTreeMap.mem_keys.mpr (Config.mem_of_mem_cluster hp)) z hz
    · apply (mem z.1 z.2).mpr
      rcases List.mem_pair.mp hz with rfl | rfl
      · exact ⟨s, List.mem_cons_self, _, hpx, hx⟩
      · exact ⟨s, List.mem_cons_self, _, hpy, hy⟩
  have hnever : ∀ order ∈ [x, y].permutations',
      ¬EnabledInTurn (makeWorkflow rivals.workflow) (order.map Prod.fst) := by
    decide +kernel
  exact hnever order (List.mem_permutations'.mpr hperm) legal

end TrustedDcr.System
