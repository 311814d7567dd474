import TrustedDcr.System.Commitment
import TrustedDcr.Theory.Ledger

/-!
# The ledgers of a run

The longest log a cluster has committed so far is its ledger, and the executions
that enter the ledgers of their own events make an order. A run is a sequence of
extensions of this book, whose notes fit under the conditions stated here: a
cluster admits a lock when the last attempt is settled, an event executes when its
locks are held, and executions are told of in order.
-/

namespace TrustedDcr.System
open TrustedDcr.Msg TrustedDcr.Dcr TrustedDcr.Dcr.DcrWorkflow TrustedDcr.Enclave
open TrustedDcr.Theory TrustedDcr.Theory.Dcr

/-! ### Logs as ledgers -/

/-- What an entry notes; an attempt is an event with the identifier of its commands. -/
def note (e : Entry) : Option (Note Uid Uid) :=
  match e.tag.type with
  | .lock => some (.lock (e.event, e.tag.uid))
  | .exec => some (.exec (e.event, e.tag.uid))
  | .abort | .checkpoint => none

/-- Only a LOCK entry is noted as a lock, with its event and attempt. -/
theorem note_eq_lock {e : Entry} {x : Uid × Uid} (h : note e = some (.lock x)) :
    e.tag.type = .lock ∧ (e.event, e.tag.uid) = x := by
  unfold note at h
  cases htype : e.tag.type <;> rw [htype] at h <;> cases h
  exact ⟨rfl, rfl⟩

/-- Only an EXEC entry is noted as an execution, with its event and attempt. -/
theorem note_eq_exec {e : Entry} {x : Uid × Uid} (h : note e = some (.exec x)) :
    e.tag.type = .exec ∧ (e.event, e.tag.uid) = x := by
  unfold note at h
  cases htype : e.tag.type <;> rw [htype] at h <;> cases h
  exact ⟨rfl, rfl⟩

/-- What a log notes. -/
def notes (log : List Entry) : List (Note Uid Uid) := log.filterMap note

/-- The executions in a log. -/
def executed (log : List Entry) : List (Uid × Uid) := execs (notes log)

/-- The notes of two logs in a row are those of each in turn. -/
theorem notes_append (l l' : List Entry) : notes (l ++ l') = notes l ++ notes l' :=
  List.filterMap_append

/-- A beginning of a log has the beginning of its notes. -/
theorem notes_isPrefix {l l' : List Entry} (h : l <+: l') : notes l <+: notes l' := by
  obtain ⟨r, rfl⟩ := h
  rw [notes_append]
  exact List.prefix_append _ _

/-- The loops of `update_commit_index` execute the noted events. -/
theorem executeEntries_eq (w : DcrWorkflow) (entries : List Entry) :
    executeEntries w entries = ((executed entries).map Prod.fst).foldl setEventExecuted w := by
  induction entries generalizing w with
  | nil => rfl
  | cons e entries ih =>
    unfold executeEntries
    rw [List.foldl_cons]
    refine (ih _).trans ?_
    cases htype : e.tag.type <;>
      simp [executed, notes, note, execs, Note.execution, List.filterMap_cons, htype]

/-- The longest log that the members of a cluster have committed. -/
def ledger (cfg : Config) (x : Uid) : Hist → World → List Entry
  | [], _ => [getEmptyEntry]
  | (s', a) :: h, s =>
    if cfg.clusterOf a.peer = x ∧
        (ledger cfg x h s').length < (s.peers a.peer).node.committed.length then
      (s.peers a.peer).node.committed
    else ledger cfg x h s'

/-- The executions of a run in the order in which their own clusters committed them. -/
def executions (cfg : Config) : Hist → World → List (Uid × Uid)
  | [], _ => []
  | (s', a) :: h, s => executions cfg h s' ++
      (executed ((ledger cfg (cfg.clusterOf a.peer) ((s', a) :: h) s).drop
        (ledger cfg (cfg.clusterOf a.peer) h s').length)).filter (·.1 = cfg.clusterOf a.peer)

/-- The ledgers of all clusters with the order of executions. -/
def book (cfg : Config) (h : Hist) (s : World) : Book Uid Uid :=
  ⟨fun x ↦ notes (ledger cfg x h s), executions cfg h s⟩

/-! ### Conditions on steps -/

/-- A leader admits a LOCK when every attempt with a lock in its log has executed there, and one of
its own event when, besides, it has committed every execution that locks the event, and none is of
the same attempt. -/
def AdmitsSettled (s : World) (a : Action) : Prop :=
  match a.call with
  | .recv (.commandReq req) => (s.peers a.peer).admitsLock req = true →
      (∀ e ∈ (s.peers a.peer).log, e.tag.type = .lock →
        (e.event, e.tag.uid) ∈ executed (s.peers a.peer).log) ∧
      (req.event = (s.peers a.peer).clusterEvent →
        (∀ e ∈ (s.peers a.peer).log.drop ((s.peers a.peer).commitIndex + 1), e.tag.type = .exec →
          req.event ∉ (s.peers a.peer).workflow.getLockSet e.event) ∧
        (req.event, req.tag.uid) ∉ executed (s.peers a.peer).log)
  | _ => True

instance (s : World) (a : Action) : Decidable (AdmitsSettled s a) := by
  unfold AdmitsSettled
  induction a.call using Call.casesOn with
  | recv m => induction m using Message.casesOn <;> infer_instance
  | _ => infer_instance

/-- A leader that completes the locks of an attempt has locked its own event for it and not executed
it yet, and all events of the lock set are locked by committed entries. -/
def ExecutesLocked (cfg : Config) (h : Hist) (s : World) (a : Action) : Prop :=
  match a.call with
  | .recv (.commandRsp rsp) => (s.peers a.peer).completesLocks rsp = true →
      let x := ((s.peers a.peer).clusterEvent, rsp.tag.uid)
      x ∉ executed (s.peers a.peer).log ∧ .lock x ∈ notes (s.peers a.peer).log ∧
        ∀ y ∈ ((s.peers a.peer).workflow.getLockSet x.1).toList, .lock x ∈ notes (ledger cfg y h s)
  | _ => True

instance (cfg : Config) (h : Hist) (s : World) (a : Action) : Decidable (ExecutesLocked cfg h s a) := by
  unfold ExecutesLocked
  induction a.call using Call.casesOn with
  | recv m => induction m using Message.casesOn <;> infer_instance
  | _ => infer_instance

/-- A leader that appends an EXEC entry on request appends that of another event, and after no
execution in its log that happened later. -/
def InformsInOrder (cfg : Config) (h : Hist) (s : World) (a : Action) : Prop :=
  match a.call with
  | .recv (.commandReq req) => req.target = (s.peers a.peer).id →
      (s.peers a.peer).role = .leader → (s.peers a.peer).existInLog req.tag = none →
      req.tag.type = .exec → req.event ≠ (s.peers a.peer).clusterEvent ∧
        (executed (s.peers a.peer).log ++ [(req.event, req.tag.uid)]).Sublist (executions cfg h s)
  | _ => True

instance (cfg : Config) (h : Hist) (s : World) (a : Action) : Decidable (InformsInOrder cfg h s a) := by
  unfold InformsInOrder
  induction a.call using Call.casesOn with
  | recv m => induction m using Message.casesOn <;> infer_instance
  | _ => infer_instance

/-- What the order of executions rests on. -/
def ExecutesInOrder (cfg : Config) (h : Hist) (s : World) (a : Action) : Prop :=
  CommitsSafely cfg h s a ∧ AdmitsSettled s a ∧ ExecutesLocked cfg h s a ∧ InformsInOrder cfg h s a

instance (cfg : Config) (h : Hist) (s : World) (a : Action) :
    Decidable (ExecutesInOrder cfg h s a) := inferInstanceAs (Decidable (_ ∧ _))

/-! ### Ledgers grow -/

section
variable {cfg : Config} {h : Hist} {s t : World} {a : Action}

/-- Executions are of events that have a peer. -/
theorem exists_mem_cluster_of_execution (run : Run cfg (CommitsSafely cfg) h s) {x : Uid × Uid}
    (hx : x ∈ executions cfg h s) : ∃ p, p ∈ cfg.cluster x.1 := by
  induction run with
  | initial => exact nomatch hx
  | @step h s t a run meets next ih =>
    rcases List.mem_append.mp hx with hx | hx
    · exact ih hx
    · obtain ⟨-, hevent⟩ := List.mem_filter.mp hx
      rw [of_decide_eq_true hevent]
      exact ⟨a.peer, Config.mem_cluster_clusterOf (World.step_cases next).1.1⟩

/-- A step leaves a ledger or lengthens it to what the calling member has then committed. -/
theorem ledger_cases (run : Run cfg (CommitsSafely cfg) ((s, a) :: h) t) {x : Uid}
    (old : ∃ u ∈ states h s, ∃ q ∈ cfg.cluster x, ledger cfg x h s = (u.peers q).node.committed) :
    ledger cfg x ((s, a) :: h) t = ledger cfg x h s ∧ (a.peer ∈ cfg.cluster x →
        (t.peers a.peer).node.committed <+: ledger cfg x h s) ∨
      a.peer ∈ cfg.cluster x ∧
        ledger cfg x ((s, a) :: h) t = (t.peers a.peer).node.committed ∧
        ledger cfg x h s <+: (t.peers a.peer).node.committed := by
  obtain ⟨u, hu, q, hq, hold⟩ := old
  have compare (hp : a.peer ∈ cfg.cluster x) := run.committed_isPrefix hq hp
    (List.mem_cons_of_mem _ hu) List.mem_cons_self
  rw [← hold] at compare
  have hp : cfg.clusterOf a.peer = x → a.peer ∈ cfg.cluster x := by
    rintro rfl
    cases run with
    | step run meets next => exact Config.mem_cluster_clusterOf (World.step_cases next).1.1
  rw [ledger]
  split
  · next hlonger =>
    refine Or.inr ⟨hp hlonger.1, rfl, (compare (hp hlonger.1)).resolve_right fun hpre ↦ ?_⟩
    exact absurd hpre.length_le (Nat.not_le.mpr hlonger.2)
  · next hshorter =>
    refine Or.inl ⟨rfl, fun hin ↦ (compare hin).elim (fun hpre ↦ ?_) id⟩
    have hle : (t.peers a.peer).node.committed.length ≤ (ledger cfg x h s).length :=
      Nat.not_lt.mp fun hlt ↦ hshorter ⟨Config.clusterOf_of_mem hin, hlt⟩
    rw [hpre.eq_of_length_le hle]

/-- A ledger is what some member had committed, and holds all that any member has. -/
theorem Run.ledger_spec (run : Run cfg (CommitsSafely cfg) h s) {x p : Uid}
    (hp : p ∈ cfg.cluster x) :
    (∃ t ∈ states h s, ∃ q ∈ cfg.cluster x, ledger cfg x h s = (t.peers q).node.committed) ∧
      ∀ t ∈ states h s, ∀ q ∈ cfg.cluster x, (t.peers q).node.committed <+: ledger cfg x h s := by
  have root (q : Uid) : ((World.initial cfg).peers q).node.committed = [getEmptyEntry] := by
    rw [show (World.initial cfg).peers q = configured cfg q from rfl, (fresh_configured cfg q).node]
    rfl
  induction run with
  | initial =>
    refine ⟨⟨_, List.mem_singleton_self _, p, hp, (root p).symm⟩, fun t ht q _ ↦ ?_⟩
    obtain rfl := List.mem_singleton.mp ht
    rw [root q]
    exact List.prefix_rfl
  | @step h s t a run meets next ih =>
    obtain ⟨old, hall⟩ := ih
    obtain ⟨-, e, -, hpeers, -⟩ := World.step_cases next
    have hother {q : Uid} (hq : q ≠ a.peer) : t.peers q = s.peers q := by
      rw [hpeers, Function.update_of_ne hq]
    rcases ledger_cases (run.step meets next) old with ⟨heq, hcaller⟩ | ⟨hin, heq, hlonger⟩
    · rw [heq]
      refine ⟨?_, fun u hu q hq ↦ ?_⟩
      · obtain ⟨u, hu, hrest⟩ := old
        exact ⟨u, List.mem_cons_of_mem _ hu, hrest⟩
      · rcases List.mem_cons.mp hu with rfl | hu
        · rcases eq_or_ne q a.peer with rfl | hne
          · exact hcaller hq
          · rw [hother hne]
            exact hall s List.mem_cons_self q hq
        · exact hall u hu q hq
    · rw [heq]
      refine ⟨⟨t, List.mem_cons_self, a.peer, hin, rfl⟩, fun u hu q hq ↦ ?_⟩
      rcases List.mem_cons.mp hu with rfl | hu
      · rcases eq_or_ne q a.peer with rfl | hne
        · exact List.prefix_rfl
        · rw [hother hne]
          exact (hall s List.mem_cons_self q hq).trans hlonger
      · exact (hall u hu q hq).trans hlonger

/-- A step extends the ledger of the calling member's cluster by what it newly commits. -/
theorem Run.ledger_step (run : Run cfg (CommitsSafely cfg) h s) (meets : CommitsSafely cfg h s a)
    (next : s.step cfg a = some t) :
    ∃ new, ledger cfg (cfg.clusterOf a.peer) ((s, a) :: h) t =
        ledger cfg (cfg.clusterOf a.peer) h s ++ new ∧
      (new = [] ∨ ledger cfg (cfg.clusterOf a.peer) h s ++ new = (t.peers a.peer).node.committed) := by
  have hin := Config.mem_cluster_clusterOf (World.step_cases next).1.1
  rcases ledger_cases (run.step meets next) (run.ledger_spec hin).1 with
    ⟨heq, -⟩ | ⟨-, heq, new, hnew⟩
  · exact ⟨[], by rw [heq, List.append_nil], Or.inl rfl⟩
  · exact ⟨new, by rw [heq, hnew], Or.inr hnew⟩

/-- So it extends the book. -/
theorem book_step {new : List Entry} (hnew : ledger cfg (cfg.clusterOf a.peer) ((s, a) :: h) t =
      ledger cfg (cfg.clusterOf a.peer) h s ++ new) :
    book cfg ((s, a) :: h) t = (book cfg h s).extend (cfg.clusterOf a.peer) (notes new) := by
  unfold book Book.extend
  congr 1
  · funext x
    rcases eq_or_ne x (cfg.clusterOf a.peer) with rfl | hx
    · rw [Function.update_self, hnew, notes_append]
    · rw [Function.update_of_ne hx, ledger, if_neg fun hc ↦ hx hc.1.symm]
  · rw [executions, hnew, List.drop_left]
    rfl

end

end TrustedDcr.System
