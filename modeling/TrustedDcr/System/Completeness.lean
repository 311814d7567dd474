import Mathlib.Data.Set.Finite.Basic
import TrustedDcr.Enclave.Resolution
import TrustedDcr.System.Attempts
import TrustedDcr.System.Bounds
import TrustedDcr.System.Requests
import TrustedDcr.System.Replicas
import TrustedDcr.System.Serial
import TrustedDcr.System.Sole
import TrustedDcr.Theory.Record

/-!
# Every legal order is executed

Where every event has one peer and none that locks nothing has anyone to inform, the
orders in which runs execute are all legal orders of the workflow: an execution that
is enabled can be carried out from where the ones before it have left the ledgers.
-/

namespace TrustedDcr.System
open TrustedDcr.Msg TrustedDcr.Dcr TrustedDcr.Dcr.DcrWorkflow TrustedDcr.Enclave
open TrustedDcr.Theory TrustedDcr.Theory.Dcr

/-- Every event that is named has one peer, and every peer an event of the workflow. -/
def Config.Unreplicated (cfg : Config) : Prop :=
  (∀ x ∈ cfg.workflow.events, (cfg.members x).length = 1) ∧
    ∀ p ∈ cfg.peerToEventMap.keys, cfg.clusterOf p ∈ cfg.workflow.eventIds

instance (cfg : Config) : Decidable cfg.Unreplicated := inferInstanceAs (Decidable (_ ∧ _))

/-- An event that locks nothing has nobody to inform. -/
def Config.Tells (cfg : Config) : Prop := ∀ x ∈ cfg.workflow.eventIds,
  ((makeWorkflow cfg.workflow).getLockSet x).size = 0 →
    ((makeWorkflow cfg.workflow).getInformSet x).size = 0

instance (cfg : Config) : Decidable cfg.Tells :=
  inferInstanceAs (Decidable (∀ x ∈ cfg.workflow.eventIds, _))

namespace Config.Unreplicated

variable {cfg : Config} (alone : cfg.Unreplicated)
include alone

private theorem covered : cfg.Covered := by
  intro x hx empty
  have one := alone.1 x hx
  rw [empty] at one
  exact nomatch one

private theorem populated : cfg.Populated :=
  ⟨fun x hx ↦ alone.covered x (IntermediateDcrWorkflow.mem_events.mpr (Or.inl hx)), alone.2⟩

private theorem eq {p q x : Uid} (hp : p ∈ cfg.cluster x) (hq : q ∈ cfg.cluster x) : q = p := by
  have hx := alone.populated.declared hp
  have one := alone.1 x (IntermediateDcrWorkflow.mem_events.mpr (Or.inl hx))
  rw [← Config.card_cluster] at one
  exact Finset.card_le_one.mp (Nat.le_of_eq one) _ hq _ hp

end Config.Unreplicated

/-- What the steps below meet. -/
def Serves (cfg : Config) (h : Hist) (s : World) (a : Action) : Prop :=
  ExecutesInOrder cfg h s a ∧ StaysInLog cfg h s a

private theorem notes_of_map {log : List Entry} {ns : List (Note Uid Uid)}
    (h : log.map note = ns.map some) : notes log = ns := by
  have h := congrArg (List.filterMap id) h
  rw [List.filterMap_map] at h
  exact Eq.trans h (by simp [List.filterMap_map])

section
variable {log : List Entry} {ns : List (Note Uid Uid)}

/-- The notes of a log that has an entry before them. -/
theorem getElem?_of_noted (noted : log.map note = none :: ns.map some) {i : Nat} {n : Note Uid Uid} :
    ns[i]? = some n ↔ ∃ e, log[i + 1]? = some e ∧ note e = some n := by
  have at_i := congrArg (·[i + 1]?) noted
  simp only [List.getElem?_map, List.getElem?_cons_succ] at at_i
  constructor
  · intro h
    rw [h] at at_i
    exact Option.map_eq_some_iff.mp at_i
  · rintro ⟨e, he, hn⟩
    rw [he, Option.map_some, hn] at at_i
    obtain ⟨n', hn', eq⟩ := Option.map_eq_some_iff.mp at_i.symm
    exact hn'.trans eq

private theorem note_of_lock {e : Entry} (type : e.tag.type = .lock) :
    note e = some (.lock (e.event, e.tag.uid)) := by
  unfold note
  rw [type]

private theorem note_of_exec {e : Entry} (type : e.tag.type = .exec) :
    note e = some (.exec (e.event, e.tag.uid)) := by
  unfold note
  rw [type]

/-- Behind a LOCK in a log whose notes are resolved there is its EXEC entry. -/
theorem exists_exec_after (noted : log.map note = none :: ns.map some) (resolved : Resolved ns)
    {i : Nat} {lock : Entry} (found : log[i]? = some lock) (type : lock.tag.type = .lock) :
    ∃ j e, i < j ∧ log[j]? = some e ∧ e.tag.type = .exec ∧ e.event = lock.event := by
  cases i with
  | zero =>
    have first := congrArg (·[0]?) noted
    simp [found, note_of_lock type] at first
  | succ i =>
    have at_i := (getElem?_of_noted noted).mpr ⟨lock, found, note_of_lock type⟩
    obtain ⟨hi, -⟩ := List.getElem?_eq_some_iff.mp at_i
    have exec := resolved (ns.take i) _ (ns.drop (i + 1)) (by
      rw [← (List.getElem?_eq_some_iff.mp at_i).2, List.getElem_cons_drop, List.take_append_drop])
    obtain ⟨k, hk⟩ := List.mem_iff_getElem?.mp exec
    rw [List.getElem?_drop] at hk
    obtain ⟨e, he, hn⟩ := (getElem?_of_noted noted).mp hk
    obtain ⟨hexec, heq⟩ := note_eq_exec hn
    exact ⟨_, e, by omega, he, hexec, congrArg Prod.fst heq⟩

end

/-- All peers lead and hold these notes and locks, and the order is this one. -/
structure Stands (cfg : Config) (ledgers : Uid → List (Note Uid Uid)) (held : Uid → Set Uid)
    (order : List (Uid × Uid)) (h : Hist) (s : World) : Prop where
  run : Run cfg (Serves cfg) h s
  steered : Steered cfg s
  leads : ∀ p ∈ cfg.peerToEventMap, (s.peers p).role = .leader ∧ (s.peers p).term = 0
  log : ∀ p ∈ cfg.peerToEventMap,
    (s.peers p).log.map note = none :: (ledgers (cfg.clusterOf p)).map some
  held : ∀ p ∈ cfg.peerToEventMap, ∀ z, z ∈ (s.peers p).lockedEvents ↔ z ∈ held (cfg.clusterOf p)
  ledger : ∀ p ∈ cfg.peerToEventMap, ledger cfg (cfg.clusterOf p) h s = (s.peers p).log
  order : executions cfg h s = order

namespace Stands

variable {cfg : Config} {ledgers : Uid → List (Note Uid Uid)} {held : Uid → Set Uid}
  {order : List (Uid × Uid)} {h : Hist} {s t : World} {a : Action} {p : Uid}

/-- Before any step. -/
theorem initial (alone : cfg.Unreplicated) :
    Stands cfg (fun _ ↦ []) (fun _ ↦ ∅) [] [] (World.initial cfg) where
  run := .initial
  steered := Run.initial.steered alone.covered
  leads p hp := by
    have fresh := fresh_configured cfg p
    have one := alone.1 (cfg.clusterOf p) (IntermediateDcrWorkflow.mem_events.mpr
      (Or.inl (alone.2 p (Std.ExtTreeMap.mem_keys.mpr hp))))
    have node := fresh.node
    rw [if_pos one] at node
    exact ⟨congrArg Node.role node, congrArg Node.term node⟩
  log p hp := by
    rw [show ((World.initial cfg).peers p).log = [getEmptyEntry] from
      congrArg Node.log (fresh_configured cfg p).node]
    rfl
  held p hp z := by
    rw [show ((World.initial cfg).peers p).lockedEvents = ∅ from (fresh_configured cfg p).lockedEvents]
    exact iff_of_false Std.ExtTreeSet.not_mem_empty (Set.notMem_empty z)
  ledger p hp := (congrArg Node.log (fresh_configured cfg p).node).symm
  order := rfl

section
variable (st : Stands cfg ledgers held order h s)
include st

private theorem ordered : Run cfg (ExecutesInOrder cfg) h s := st.run.mono fun _ _ _ meets ↦ meets.1

private theorem safe : Run cfg (CommitsSafely cfg) h s := st.run.mono fun _ _ _ meets ↦ meets.1.1

private theorem inLog (p : Uid) : (s.peers p).InLog :=
  (st.run.mono fun _ _ _ meets ↦ meets.2 : Run cfg (StaysInLog cfg) h s).inLog p

private theorem below : TermsBelow cfg s := by
  intro p hp
  rw [(st.leads p (Std.ExtTreeMap.mem_keys.mp hp)).2]
  decide

private theorem indexed (p : Uid) : Indexed (s.peers p).log :=
  ((st.run.mono fun _ _ _ meets ↦ meets.2.1.1.1 :
    Run cfg (fun _ s _ ↦ TermsBelow cfg s) h s).ordered.logs p).indexed

private theorem peer_id (p : Uid) : (s.peers p).id = p := (st.run.local.placed p).1

private theorem notes (hp : p ∈ cfg.peerToEventMap) :
    notes (s.peers p).log = ledgers (cfg.clusterOf p) := by
  cases hlog : (s.peers p).log with
  | nil => simpa [hlog] using st.log p hp
  | cons e log =>
    have noted := st.log p hp
    rw [hlog] at noted
    obtain ⟨first, rest⟩ := List.cons_eq_cons.mp noted
    unfold System.notes
    rw [List.filterMap_cons_none first]
    exact notes_of_map rest

variable (alone : cfg.Unreplicated)
include alone

private theorem sole (hp : p ∈ cfg.peerToEventMap) : (s.peers p).Sole := by
  refine ⟨(st.leads p hp).1, st.run.settled ?_⟩
  rw [show (s.peers p).clusterSize = _ from (st.run.local.placed p).2.2]
  exact alone.1 _ (IntermediateDcrWorkflow.mem_events.mpr
    (Or.inl (alone.2 p (Std.ExtTreeMap.mem_keys.mpr hp))))

private theorem committed (hp : p ∈ cfg.peerToEventMap) :
    (s.peers p).node.committed = (s.peers p).log := by
  have settled := (st.sole alone hp).settled.2
  exact List.take_of_length_le (Nat.le_of_eq settled)

/-! ### One call -/

/-- The ledgers after a call that writes these entries. -/
theorem step (ns : List (Note Uid Uid)) {entries : List Entry} {locked : UidSet}
    {ms : List Message} {e : EnclaveState} (allowed : a.Allowed cfg s) (meets : Serves cfg h s a)
    (returns : a.call.body a.oracle (s.enclave a.peer) = .ok (⟨⟩, e))
    (writes : Writes entries locked ms (s.enclave a.peer) e)
    (noted : entries.map note = ns.map some)
    (granted : ∀ rsp, .commandRsp rsp ∈ ms → rsp ≠ a.oracle.junkRsp 0)
    (junk : ∀ round, a.oracle.junkRsp round = a.oracle.junkRsp 0) :
    ∃ t, Stands cfg (Function.update ledgers (cfg.clusterOf a.peer)
        (ledgers (cfg.clusterOf a.peer) ++ ns))
      (Function.update held (cfg.clusterOf a.peer) {z | z ∈ locked})
      (order ++ (execs ns).filter (·.1 = cfg.clusterOf a.peer)) ((s, a) :: h) t ∧
      t.net = s.net ++ ms := by
  have next := World.step_eq_some allowed returns
  generalize ht : (⟨Function.update s.peers a.peer e.self, s.net ++ e.sent, s.uids ++ e.drawn⟩ :
    World) = t at next
  have net : t.net = s.net ++ ms := by
    rw [← ht]
    exact congrArg (s.net ++ ·) (writes.sent.trans (List.nil_append ms))
  have self : t.peers a.peer = e.self := by
    rw [← ht]
    exact Function.update_self ..
  have other {q : Uid} (hq : q ≠ a.peer) : t.peers q = s.peers q := by
    rw [← ht]
    exact Function.update_of_ne hq ..
  have log : e.self.log = (s.peers a.peer).log ++ entries := congrArg Node.log writes.node
  have apart {q : Uid} (hq : q ∈ cfg.peerToEventMap) (hne : q ≠ a.peer) :
      cfg.clusterOf q ≠ cfg.clusterOf a.peer := fun same ↦
    hne (alone.eq (Config.mem_cluster_clusterOf allowed.1)
      (same ▸ Config.mem_cluster_clusterOf hq))
  have committed : (t.peers a.peer).node.committed = (s.peers a.peer).log ++ entries := by
    have settled := (st.sole alone allowed.1).settled.2
    have index : e.self.commitIndex = (s.peers a.peer).commitIndex + entries.length :=
      congrArg Node.commitIndex writes.node
    rw [self]
    change e.self.log.take (e.self.commitIndex + 1) = _
    rw [log, index, List.take_of_length_le]
    rw [List.length_append, settled]
    omega
  have ledger : System.ledger cfg (cfg.clusterOf a.peer) ((s, a) :: h) t =
      (s.peers a.peer).log ++ entries := by
    rw [System.ledger, st.ledger _ allowed.1, committed, List.length_append]
    split
    · rfl
    · next short =>
      have none : entries = [] := by
        by_contra some
        have pos := List.length_pos_of_ne_nil some
        exact short ⟨rfl, by omega⟩
      rw [none, List.append_nil]
  refine ⟨t, ?_, net⟩
  constructor
  case run => exact st.run.step meets next
  case steered =>
    refine st.steered.step alone.covered (fun t' next' round mem ↦ ?_) next
    obtain rfl := Option.some.inj (next.symm.trans next')
    rw [net, List.drop_left, junk] at mem
    exact granted _ mem rfl
  case leads =>
    intro q hq
    rcases eq_or_ne q a.peer with rfl | hne
    · rw [self]
      exact ⟨(congrArg Node.role writes.node).trans (st.leads _ hq).1,
        (congrArg Node.term writes.node).trans (st.leads _ hq).2⟩
    · rw [other hne]
      exact st.leads q hq
  case log =>
    intro q hq
    rcases eq_or_ne q a.peer with rfl | hne
    · rw [self, log, List.map_append, st.log _ hq, noted, Function.update_self, List.map_append]
      rfl
    · rw [other hne, Function.update_of_ne (apart hq hne)]
      exact st.log q hq
  case held =>
    intro q hq z
    rcases eq_or_ne q a.peer with rfl | hne
    · rw [self, Function.update_self, writes.lockedEvents]
      rfl
    · rw [other hne, Function.update_of_ne (apart hq hne)]
      exact st.held q hq z
  case ledger =>
    intro q hq
    rcases eq_or_ne q a.peer with rfl | hne
    · rw [ledger, self, log]
    · rw [System.ledger, if_neg fun same ↦ apart hq hne same.1.symm, other hne]
      exact st.ledger q hq
  case order =>
    rw [executions, ledger, st.ledger _ allowed.1, List.drop_left, st.order]
    unfold executed
    rw [notes_of_map noted]

/-- A delivery that writes these entries and sends these messages. -/
theorem deliver (ns : List (Note Uid Uid)) {m : Message} {entries : List Entry} {locked : UidSet}
    {ms : List Message} (hp : p ∈ cfg.peerToEventMap) (sent : m ∈ s.net)
    (meets : Serves cfg h s ⟨p, .recv m, silent⟩)
    (returns : Returns (dispatch silent m) (s.enclave p))
    (writes : wp (dispatch silent m) (fun _ e ↦ Writes entries locked ms (s.enclave p) e)
      (s.enclave p))
    (noted : entries.map note = ns.map some)
    (granted : ∀ rsp, .commandRsp rsp ∈ ms → rsp.success = true) :
    ∃ h' t, Stands cfg (Function.update ledgers (cfg.clusterOf p) (ledgers (cfg.clusterOf p) ++ ns))
      (Function.update held (cfg.clusterOf p) {z | z ∈ locked})
      (order ++ (execs ns).filter (·.1 = cfg.clusterOf p)) h' t ∧ t.net = s.net ++ ms := by
  obtain ⟨⟨⟩, e, he⟩ := returns
  obtain ⟨t, stands, net⟩ := st.step alone ns (a := ⟨p, .recv m, silent⟩) ⟨hp, sent⟩ meets he
    (writes _ e he) noted (fun rsp hrsp same ↦ by
      have success := granted rsp hrsp
      rw [same] at success
      exact nomatch success) fun _ ↦ rfl
  exact ⟨_, t, stands, net⟩

omit alone in
private theorem held_self (hp : p ∈ cfg.peerToEventMap) :
    Function.update held (cfg.clusterOf p) {z | z ∈ (s.peers p).lockedEvents} = held := by
  rw [show {z | z ∈ (s.peers p).lockedEvents} = held (cfg.clusterOf p) from Set.ext (st.held p hp),
    Function.update_eq_self]

omit alone in
/-- What is not in the ledger is not in the log. -/
theorem lock_not_logged (hp : p ∈ cfg.peerToEventMap) {u : Uid}
    (fresh : ∀ x, .lock (x, u) ∉ ledgers (cfg.clusterOf p)) :
    (s.peers p).existInLog ⟨u, .lock⟩ = none := by
  rw [existInLog_eq_none]
  intro found
  obtain ⟨e, he, tag⟩ := List.mem_map.mp found
  refine fresh e.event ?_
  rw [← st.notes hp]
  exact List.mem_filterMap.mpr ⟨e, he, by rw [note_of_lock (by rw [tag]), tag]⟩

omit alone in
private theorem exec_not_logged (hp : p ∈ cfg.peerToEventMap) {u : Uid}
    (fresh : ∀ x, .exec (x, u) ∉ ledgers (cfg.clusterOf p)) :
    (s.peers p).existInLog ⟨u, .exec⟩ = none := by
  rw [existInLog_eq_none]
  intro found
  obtain ⟨e, he, tag⟩ := List.mem_map.mp found
  refine fresh e.event ?_
  rw [← st.notes hp]
  exact List.mem_filterMap.mpr ⟨e, he, by rw [note_of_exec (by rw [tag]), tag]⟩

omit alone in
private theorem serves_request {req : CommandReq} (other : req.tag.type ≠ .abort)
    (admits : AdmitsSettled s ⟨p, .recv (.commandReq req), silent⟩)
    (informs : InformsInOrder cfg h s ⟨p, .recv (.commandReq req), silent⟩) :
    Serves cfg h s ⟨p, .recv (.commandReq req), silent⟩ := by
  have aborts : AbortsHeld s ⟨p, .recv (.commandReq req), silent⟩ := by
    intro appends
    simp [Peer.appendsAbort, other] at appends
  exact ⟨⟨⟨⟨st.below, trivial⟩, trivial⟩, admits, trivial, informs⟩,
    ⟨⟨⟨st.below, trivial⟩, trivial, trivial⟩, trivial, trivial, aborts⟩⟩

/-- An execution of another event is told of. -/
theorem inform {q x u : Uid} (hp : p ∈ cfg.peerToEventMap)
    (sent : .commandReq ⟨p, q, ⟨u, .exec⟩, x⟩ ∈ s.net) (foreign : x ≠ cfg.clusterOf p)
    (fresh : ∀ y, .exec (y, u) ∉ ledgers (cfg.clusterOf p))
    (inOrder : (execs (ledgers (cfg.clusterOf p)) ++ [(x, u)]).Sublist order) :
    ∃ h' t, Stands cfg (Function.update ledgers (cfg.clusterOf p)
        (ledgers (cfg.clusterOf p) ++ [.exec (x, u)])) held order h' t ∧
      ∀ m ∈ s.net, m ∈ t.net := by
  let req : CommandReq := ⟨p, q, ⟨u, .exec⟩, x⟩
  have logs : (s.peers p).logsCommand req = true := by
    simp [Peer.logsCommand, req, st.peer_id, (st.leads p hp).1, st.exec_not_logged hp fresh]
  have meets : Serves cfg h s ⟨p, .recv (.commandReq req), silent⟩ := by
    refine st.serves_request (by simp [req]) (fun admits ↦ ?_) fun _ _ _ _ ↦ ⟨?_, ?_⟩
    · simp [Peer.admitsLock, req] at admits
    · exact (st.run.clusterEvent p).symm ▸ foreign
    · rw [show executed (s.peers p).log = execs (ledgers (cfg.clusterOf p)) from
        congrArg execs (st.notes hp), st.order]
      exact inOrder
  have returns : Returns (dispatch silent (.commandReq req)) (s.enclave p) :=
    returns_recvCommandReq true req (st.inLog p) fun appends ↦ by
      simp [Peer.appendsAbort, req] at appends
  have answered : (s.peers p).answers ((s.peers p).commandEntry req req.tag) = true := by
    simp [Peer.answers, Peer.commandEntry, Peer.ownLock, req]
  obtain ⟨h', t, stands, net⟩ := st.deliver alone [.exec (x, u)] hp sent meets returns
    (writes_recvCommandReq_of_logs (s := s.enclave p) (st.sole alone hp) logs) rfl fun rsp hrsp ↦ by
      rw [show (s.enclave p).self = s.peers p from rfl,
        Peer.announces_of_answered answered (by simp [Peer.commandEntry, req])] at hrsp
      obtain rfl := Message.commandRsp.inj (List.mem_singleton.mp hrsp)
      rfl
  rw [show execs [Note.exec (x, u)] = [(x, u)] from rfl,
    List.filter_cons_of_neg (by simpa using foreign), List.filter_nil, List.append_nil,
    show (s.enclave p).self = s.peers p from rfl, st.held_self hp] at stands
  exact ⟨h', t, stands, fun m hm ↦ net ▸ List.mem_append_left _ hm⟩

/-- No lock is open where all are resolved. -/
theorem unlocked (hp : p ∈ cfg.peerToEventMap) (resolved : Resolved (ledgers (cfg.clusterOf p))) :
    (s.peers p).hasUnresolvedLock = .ok none := by
  refine Peer.hasUnresolvedLock_eq_none (st.inLog p).commit fun i lock found type ↦ ?_
  obtain ⟨j, e, hlt, he, exec, event⟩ := exists_exec_after (st.log p hp) resolved found type
  have inside := (List.getElem?_eq_some_iff.mp he).1
  have settled := (st.sole alone hp).settled.2
  exact ⟨j, e, hlt, by omega, he, by simp [exec], event⟩

private theorem admitsSettled (hp : p ∈ cfg.peerToEventMap)
    (resolved : Resolved (ledgers (cfg.clusterOf p))) {req : CommandReq}
    (fresh : ∀ y, .exec (y, req.tag.uid) ∉ ledgers (cfg.clusterOf p)) :
    AdmitsSettled s ⟨p, .recv (.commandReq req), silent⟩ := by
  have notes := st.notes hp
  have executed : executed (s.peers p).log = execs (ledgers (cfg.clusterOf p)) :=
    congrArg execs notes
  refine fun _ ↦ ⟨fun e he type ↦ ?_, fun _ ↦ ⟨fun e he ↦ ?_, ?_⟩⟩
  · rw [executed, mem_execs]
    refine resolved.settled _ ?_
    rw [← notes]
    exact List.mem_filterMap.mpr ⟨e, he, note_of_lock type⟩
  · have settled := (st.sole alone hp).settled.2
    rw [List.drop_eq_nil_of_le (Nat.le_of_eq settled)] at he
    exact nomatch he
  · rw [executed, mem_execs]
    exact fresh _

/-- A LOCK of another event is granted. -/
theorem grant {q x u : Uid} (hp : p ∈ cfg.peerToEventMap)
    (sent : .commandReq ⟨p, q, ⟨u, .lock⟩, x⟩ ∈ s.net) (foreign : x ≠ cfg.clusterOf p)
    (resolved : Resolved (ledgers (cfg.clusterOf p)))
    (fresh : ∀ y, .lock (y, u) ∉ ledgers (cfg.clusterOf p) ∧ .exec (y, u) ∉ ledgers (cfg.clusterOf p)) :
    ∃ h' t, Stands cfg (Function.update ledgers (cfg.clusterOf p)
        (ledgers (cfg.clusterOf p) ++ [.lock (x, u)])) held order h' t ∧
      (∀ m ∈ s.net, m ∈ t.net) ∧ .commandRsp ⟨q, p, ⟨u, .lock⟩, true, emptyUid⟩ ∈ t.net := by
  let req : CommandReq := ⟨p, q, ⟨u, .lock⟩, x⟩
  have event := st.run.clusterEvent p
  have other := (uidsEqual_eq_false _ _).mpr foreign
  have admits : (s.peers p).admitsLock req = true := by
    simp [Peer.admitsLock, req, st.peer_id, (st.leads p hp).1,
      st.lock_not_logged hp fun x ↦ (fresh x).1, st.unlocked alone hp resolved, event, other]
  have atOnce : (s.peers p).executesAtOnce req = false := by
    simp [Peer.executesAtOnce, req, event, other]
  have meets : Serves cfg h s ⟨p, .recv (.commandReq req), silent⟩ :=
    st.serves_request (by simp [req])
      (st.admitsSettled alone hp resolved fun y ↦ (fresh y).2) fun _ _ _ exec ↦ by simp [req] at exec
  have returns : Returns (dispatch silent (.commandReq req)) (s.enclave p) :=
    returns_recvCommandReq true req (st.inLog p) fun appends ↦ by
      simp [Peer.appendsAbort, req] at appends
  have answered : (s.peers p).answers ((s.peers p).commandEntry req req.tag) = true := by
    simp [Peer.answers, Peer.commandEntry, Peer.ownLock, req, event, other]
  have writes := writes_recvCommandReq_of_admits (o := silent) (s := s.enclave p)
    (st.sole alone hp) admits
  rw [show (s.enclave p).self = s.peers p from rfl, atOnce] at writes
  have announces : (s.peers p).announces silent ((s.peers p).commandEntry req req.tag) =
      [.commandRsp ⟨q, p, ⟨u, .lock⟩, true, emptyUid⟩] := by
    rw [Peer.announces_of_answered answered (by simp [Peer.commandEntry, req]), st.peer_id]
    rfl
  obtain ⟨h', t, stands, net⟩ := st.deliver alone [.lock (x, u)] hp sent meets returns
    writes rfl fun rsp hrsp ↦ by
      rw [if_neg (by simp), announces] at hrsp
      obtain rfl := Message.commandRsp.inj (List.mem_singleton.mp hrsp)
      rfl
  rw [if_neg (by simp), announces] at net
  rw [execs_lock, List.filter_nil, List.append_nil, st.held_self hp] at stands
  exact ⟨h', t, stands, fun m hm ↦ net ▸ List.mem_append_left _ hm, net ▸ by simp⟩

omit alone in
private theorem getLockSet (hp : p ∈ cfg.peerToEventMap) (x : Uid) :
    (s.peers p).workflow.getLockSet x = (makeWorkflow cfg.workflow).getLockSet x := by
  rw [getLockSet_of_sameGraph (st.steered.routed p hp).workflow]

omit alone in
private theorem getInformSet (hp : p ∈ cfg.peerToEventMap) (x : Uid) :
    (s.peers p).workflow.getInformSet x = (makeWorkflow cfg.workflow).getInformSet x := by
  rw [getInformSet_of_sameGraph (st.steered.routed p hp).workflow]

/-- A command for events is addressed to the peer of each. -/
theorem mem_commandsTo (hp : p ∈ cfg.peerToEventMap) {o : Oracle} {tag : CommandTag}
    {events : List Uid} {y q : Uid} (hy : y ∈ events) (hq : q ∈ cfg.cluster y) :
    .commandReq ⟨q, p, tag, cfg.clusterOf p⟩ ∈
      ((s.peers p).commandsTo o tag events).map Message.commandReq := by
  obtain ⟨l, hl, leader⟩ := (st.steered.routed p hp).leaderMap y q hq
  refine List.mem_map.mpr ⟨_, List.mem_map.mpr ⟨y, hy, rfl⟩, ?_⟩
  unfold Peer.leaderFor Peer.command
  rw [leader, alone.eq hq hl, st.peer_id, st.run.clusterEvent p]

/-- An event that is enabled after its ledger is found enabled by its peer. -/
theorem isEventEnabled (hp : p ∈ cfg.peerToEventMap)
    (declared : ∀ y ∈ execs (ledgers (cfg.clusterOf p)), y.1 ∈ cfg.workflow.eventIds)
    (enabled : EnabledAfter cfg.graph cfg.marking (ledgers (cfg.clusterOf p)) (cfg.clusterOf p)) :
    ((s.peers p).workflow.isEventEnabled (cfg.clusterOf p)).1 = true := by
  have member := Config.mem_cluster_clusterOf hp
  have reads : SameReads (executeEntries (makeWorkflow cfg.workflow) (s.peers p).node.committed)
    (s.peers p).workflow := st.safe.replica List.mem_cons_self member
  rw [st.committed alone hp, executeEntries_eq, show executed (s.peers p).log = _ from
    congrArg execs (st.notes hp)] at reads
  obtain ⟨wellFormed, graph, marking⟩ :=
    (makeWorkflow_wellFormed cfg.workflow).foldl_setEventExecuted
      (s := (execs (ledgers (cfg.clusterOf p))).map Prod.fst) fun e he ↦ by
        obtain ⟨y, hy, rfl⟩ := List.mem_map.mp he
        exact declared y hy
  refine (isEventEnabled_iff (reads.wellFormed wellFormed) (alone.populated.declared member)).mpr ?_
  rw [reads.graph.graph_eq, reads.marking_eq, graph, marking]
  exact enabled

/-- A LOCK of the own event executes it at once when there is nothing to lock, and otherwise asks
for the locks. -/
theorem begin {u : Uid} (hp : p ∈ cfg.peerToEventMap)
    (sent : .commandReq ⟨p, p, ⟨u, .lock⟩, cfg.clusterOf p⟩ ∈ s.net)
    (resolved : Resolved (ledgers (cfg.clusterOf p)))
    (fresh : ∀ y, .lock (y, u) ∉ ledgers (cfg.clusterOf p) ∧ .exec (y, u) ∉ ledgers (cfg.clusterOf p))
    (declared : ∀ y ∈ execs (ledgers (cfg.clusterOf p)), y.1 ∈ cfg.workflow.eventIds)
    (enabled : EnabledAfter cfg.graph cfg.marking (ledgers (cfg.clusterOf p)) (cfg.clusterOf p)) :
    let x := cfg.clusterOf p
    let locks := (makeWorkflow cfg.workflow).getLockSet x
    ∃ h' t, (∀ m ∈ s.net, m ∈ t.net) ∧
      if locks.size = 0 then Stands cfg (Function.update ledgers x (ledgers x ++ [.exec (x, u)])) held
        (order ++ [(x, u)]) h' t
      else Stands cfg (Function.update ledgers x (ledgers x ++ [.lock (x, u)])) held order h' t ∧
        ∀ y ∈ locks.toList, ∀ q ∈ cfg.cluster y, .commandReq ⟨q, p, ⟨u, .lock⟩, x⟩ ∈ t.net := by
  intro x locks
  let req : CommandReq := ⟨p, p, ⟨u, .lock⟩, x⟩
  have event : (s.peers p).clusterEvent = x := st.run.clusterEvent p
  have admits : (s.peers p).admitsLock req = true := by
    simp [Peer.admitsLock, req, st.peer_id, (st.leads p hp).1,
      st.lock_not_logged hp fun x ↦ (fresh x).1, st.unlocked alone hp resolved, event, x,
      st.isEventEnabled alone hp declared enabled]
  have meets : Serves cfg h s ⟨p, .recv (.commandReq req), silent⟩ :=
    st.serves_request (by simp [req])
      (st.admitsSettled alone hp resolved fun y ↦ (fresh y).2) fun _ _ _ exec ↦ by simp [req] at exec
  have returns : Returns (dispatch silent (.commandReq req)) (s.enclave p) :=
    returns_recvCommandReq true req (st.inLog p) fun appends ↦ by
      simp [Peer.appendsAbort, req] at appends
  have writes := writes_recvCommandReq_of_admits (o := silent) (s := s.enclave p)
    (st.sole alone hp) admits
  rw [show (s.enclave p).self = s.peers p from rfl] at writes
  by_cases none : locks.size = 0
  · have atOnce : (s.peers p).executesAtOnce req = true := by
      simpa [Peer.executesAtOnce, req, event, st.getLockSet hp] using none
    have answered : (s.peers p).answers ((s.peers p).commandEntry req ⟨u, .exec⟩) = true := by
      simp [Peer.answers, Peer.commandEntry, Peer.ownLock]
    rw [if_pos atOnce] at writes
    obtain ⟨h', t, stands, net⟩ := st.deliver alone [.exec (x, u)] hp sent meets returns
      writes rfl fun rsp hrsp ↦ by
        rw [Peer.announces_of_answered answered (by simp [Peer.commandEntry])] at hrsp
        obtain rfl := Message.commandRsp.inj (List.mem_singleton.mp hrsp)
        rfl
    rw [show execs [Note.exec (x, u)] = [(x, u)] from rfl, List.filter_cons_of_pos (by simp [x]),
      List.filter_nil, st.held_self hp] at stands
    refine ⟨h', t, fun m hm ↦ net ▸ List.mem_append_left _ hm, ?_⟩
    rw [if_pos none]
    exact stands
  · have atOnce : (s.peers p).executesAtOnce req = false := by
      simpa [Peer.executesAtOnce, req, event, st.getLockSet hp] using none
    have announces : (s.peers p).announces silent ((s.peers p).commandEntry req req.tag) =
        ((s.peers p).lockCommands silent u).map .commandReq :=
      Peer.announces_of_own event.symm rfl
    rw [if_neg (by simp [atOnce])] at writes
    dsimp only at writes
    rw [announces] at writes
    obtain ⟨h', t, stands, net⟩ := st.deliver alone [.lock (x, u)] hp sent meets returns
      writes rfl fun rsp hrsp ↦ by simp at hrsp
    rw [execs_lock, List.filter_nil, List.append_nil, st.held_self hp] at stands
    refine ⟨h', t, fun m hm ↦ net ▸ List.mem_append_left _ hm, ?_⟩
    rw [if_neg none]
    refine ⟨stands, fun y hy q hq ↦ ?_⟩
    rw [net]
    refine List.mem_append_right _ ?_
    unfold Peer.lockCommands
    rw [event, st.getLockSet hp]
    exact st.mem_commandsTo alone hp hy hq

/-- A client may ask for an execution at any time. -/
theorem ask {u : Uid} (hp : p ∈ cfg.peerToEventMap) : ∃ h' t, Stands cfg ledgers held order h' t ∧
    (∀ m ∈ s.net, m ∈ t.net) ∧ .commandReq ⟨p, p, ⟨u, .lock⟩, cfg.clusterOf p⟩ ∈ t.net := by
  let a : Action := ⟨p, .execute (cfg.clusterOf p), { silent with uid := u }⟩
  have member := Config.mem_cluster_clusterOf hp
  obtain ⟨l, hl, named⟩ := (st.steered.routed p hp).leaderMap _ _ member
  obtain rfl := alone.eq hl member
  have meets : Serves cfg h s a := ⟨⟨⟨⟨st.below, trivial⟩, trivial⟩, trivial, trivial, trivial⟩,
    ⟨⟨st.below, trivial⟩, trivial, trivial⟩, trivial, trivial, trivial⟩
  obtain ⟨⟨⟩, e, returns⟩ := total_execute (o := a.oracle) (cfg.clusterOf p) (s.enclave p)
  obtain ⟨t, stands, net⟩ := st.step alone [] (a := a) ⟨hp, trivial⟩ meets returns
    (writes_execute named _ _ returns) rfl (fun rsp hrsp ↦ by simp at hrsp) fun _ ↦ rfl
  rw [List.append_nil, Function.update_eq_self, show (s.enclave a.peer).self = s.peers p from rfl,
    st.held_self hp, show execs ([] : List (Note Uid Uid)) = [] from rfl, List.filter_nil,
    List.append_nil, st.peer_id] at *
  exact ⟨_, t, stands, fun m hm ↦ net ▸ List.mem_append_left _ hm, net ▸ by simp [a]⟩

/-- A lock that is last in the ledger is found there and not resolved. -/
theorem openLock {y u : Uid} {base : List (Note Uid Uid)} (hp : p ∈ cfg.peerToEventMap)
    (last : ledgers (cfg.clusterOf p) = base ++ [.lock (y, u)]) (fresh : ∀ z, .lock (z, u) ∉ base) :
    ∃ i, (s.peers p).existInLog ⟨u, .lock⟩ = some i ∧ i ≤ (s.peers p).commitIndex ∧
      (s.peers p).lockIsResolved i = .ok false := by
  have noted := st.log p hp
  rw [last] at noted
  have length : (s.peers p).log.length = base.length + 2 := by
    simpa using congrArg List.length noted
  have here : (base ++ [.lock (y, u)])[base.length]? = some (.lock (y, u)) := by simp
  obtain ⟨lock, hlock, hnote⟩ := (getElem?_of_noted noted).mp here
  obtain ⟨type, pair⟩ := note_eq_lock hnote
  have tag : lock.tag = ⟨u, .lock⟩ := by
    rw [← type, ← show lock.tag.uid = u from congrArg Prod.snd pair]
  have index : (s.peers p).existInLog ⟨u, .lock⟩ = some (base.length + 1) := by
    cases found : (s.peers p).existInLog ⟨u, .lock⟩ with
    | none =>
      exact absurd (List.mem_map.mpr ⟨lock, List.mem_of_getElem? hlock, tag⟩)
        (existInLog_eq_none.mp found)
    | some i =>
      obtain ⟨e, he, rfl⟩ := Option.map_eq_some_iff.mp found
      have same := List.find?_some he
      rw [tagsEqual_iff] at same
      obtain ⟨j, hj⟩ := List.mem_iff_getElem?.mp (List.mem_of_find?_eq_some he)
      rw [st.indexed p j e hj]
      have here := note_of_lock (e := e) (by rw [same])
      cases j with
      | zero =>
        have first := congrArg (·[0]?) noted
        simp [hj, here] at first
      | succ j =>
        have at_j := (getElem?_of_noted noted).mpr ⟨e, hj, here⟩
        rw [same] at at_j
        rcases Nat.lt_or_ge j base.length with inside | after
        · rw [List.getElem?_append_left inside] at at_j
          exact absurd (List.mem_of_getElem? at_j) (fresh _)
        · have := (List.getElem?_eq_some_iff.mp hj).1
          exact congrArg some (by omega)
  have settled := (st.sole alone hp).settled.2
  refine ⟨_, index, by omega, ?_⟩
  obtain ⟨b, hb⟩ := Peer.exists_lockIsResolved (st.inLog p).commit
    (show base.length + 1 < (s.peers p).log.length by omega)
  cases b with
  | false => exact hb
  | true =>
    obtain ⟨j, e, after, committed, -⟩ := (Peer.lockIsResolved_iff hlock type).mp hb
    omega

/-- An event that locks itself grants the lock it holds. -/
theorem regrant {y u : Uid} {base : List (Note Uid Uid)} (hp : p ∈ cfg.peerToEventMap)
    (sent : .commandReq ⟨p, p, ⟨u, .lock⟩, y⟩ ∈ s.net)
    (last : ledgers (cfg.clusterOf p) = base ++ [.lock (y, u)]) (fresh : ∀ z, .lock (z, u) ∉ base) :
    ∃ h' t, Stands cfg ledgers held order h' t ∧ (∀ m ∈ s.net, m ∈ t.net) ∧
      .commandRsp ⟨p, p, ⟨u, .lock⟩, true, p⟩ ∈ t.net := by
  let req : CommandReq := ⟨p, p, ⟨u, .lock⟩, y⟩
  obtain ⟨i, found, committed, -⟩ := st.openLock alone hp last fresh
  have meets : Serves cfg h s ⟨p, .recv (.commandReq req), silent⟩ := by
    refine st.serves_request (by simp [req]) (fun admits ↦ ?_) fun _ _ none ↦ ?_
    · simp [Peer.admitsLock, req, found] at admits
    · simp [req, found] at none
  have returns : Returns (dispatch silent (.commandReq req)) (s.enclave p) :=
    returns_recvCommandReq true req (st.inLog p) fun appends ↦ by
      simp [Peer.appendsAbort, req] at appends
  obtain ⟨h', t, stands, net⟩ := st.deliver alone [] hp sent meets returns
    (writes_recvCommandReq_of_logged (s := s.enclave p) (st.sole alone hp) (st.peer_id p).symm found
        committed) rfl fun rsp hrsp ↦ by
        obtain rfl := Message.commandRsp.inj (List.mem_singleton.mp hrsp)
        rfl
  rw [List.append_nil, Function.update_eq_self, show (s.enclave p).self = s.peers p from rfl,
    st.held_self hp, show execs ([] : List (Note Uid Uid)) = [] from rfl, List.filter_nil,
    List.append_nil] at stands
  refine ⟨h', t, stands, fun m hm ↦ net ▸ List.mem_append_left _ hm, ?_⟩
  rw [net, show (s.enclave p).self = s.peers p from rfl]
  unfold answerCommand
  rw [st.peer_id]
  exact List.mem_append_right _ (List.mem_singleton_self _)

/-- A response for the lock that is open counts. -/
theorem counts {q l x u : Uid} {base : List (Note Uid Uid)} (hp : p ∈ cfg.peerToEventMap)
    (last : ledgers (cfg.clusterOf p) = base ++ [.lock (x, u)]) (fresh : ∀ z, .lock (z, u) ∉ base) :
    (s.peers p).countsLock ⟨p, q, ⟨u, .lock⟩, true, l⟩ = true := by
  obtain ⟨i, found, -, unresolved⟩ := st.openLock alone hp last fresh
  exact Peer.countsLock_iff.mpr ⟨(st.peer_id p).symm, (st.leads p hp).1, Or.inl rfl, rfl, i, found,
    unresolved⟩

omit alone in
/-- The event of the peer that responds. -/
theorem eventOf {q y : Uid} (hp : p ∈ cfg.peerToEventMap) (hq : q ∈ cfg.cluster y) :
    q ∈ (s.peers p).peerToEventMap ∧ (s.peers p).eventOf q = y := by
  have found := Config.mem_cluster.mp hq
  unfold Peer.eventOf
  rw [(st.steered.routed p hp).peerToEventMap, Std.ExtTreeMap.getD_eq_getD_getElem?, found]
  exact ⟨Std.ExtTreeMap.mem_iff_isSome_getElem?.mpr (found ▸ rfl), rfl⟩

omit alone in
/-- The locks with those that the response adds. -/
theorem locksAquired {q y : Uid} (hp : p ∈ cfg.peerToEventMap) (hq : q ∈ cfg.cluster y)
    {rsp : CommandRsp} (source : rsp.source = q) :
    ((s.peers p).withResponse rsp).locksAquired = true ↔
      ∀ z ∈ (makeWorkflow cfg.workflow).getLockSet (cfg.clusterOf p),
        z = y ∨ z ∈ held (cfg.clusterOf p) := by
  subst source
  unfold Peer.locksAquired Peer.withResponse
  rw [st.run.clusterEvent p, st.getLockSet hp, (st.eventOf hp hq).2, List.all_eq_true]
  simp only [Std.ExtTreeSet.mem_toList, Std.ExtTreeSet.contains_iff_mem]
  refine forall₂_congr fun z _ ↦ ?_
  rw [← st.held p hp z, mem_set_insert_uid, eq_comm]

omit alone in
private theorem serves_response {rsp : CommandRsp} (type : rsp.tag.type = .lock)
    (locked : ExecutesLocked cfg h s ⟨p, .recv (.commandRsp rsp), silent⟩) :
    Serves cfg h s ⟨p, .recv (.commandRsp rsp), silent⟩ := by
  have aborts : AbortsHeld s ⟨p, .recv (.commandRsp rsp), silent⟩ := by
    intro takes
    simp [Peer.takesAbort, type] at takes
  exact ⟨⟨⟨⟨st.below, trivial⟩, trivial⟩, trivial, locked, trivial⟩,
    ⟨⟨st.below, trivial⟩, trivial, trivial⟩, trivial, trivial, aborts⟩

section
variable {q y l u : Uid} {base : List (Note Uid Uid)} (hp : p ∈ cfg.peerToEventMap)
  (sent : .commandRsp ⟨p, q, ⟨u, .lock⟩, true, l⟩ ∈ s.net) (hq : q ∈ cfg.cluster y)
  (last : ledgers (cfg.clusterOf p) = base ++ [.lock (cfg.clusterOf p, u)])
  (fresh : ∀ z, .lock (z, u) ∉ base)
include hp sent hq last fresh

/-- With a response one more event is locked. -/
theorem count (missing : ¬ ∀ z ∈ (makeWorkflow cfg.workflow).getLockSet (cfg.clusterOf p),
      z = y ∨ z ∈ held (cfg.clusterOf p)) :
    ∃ h' t, Stands cfg ledgers
      (Function.update held (cfg.clusterOf p) (insert y (held (cfg.clusterOf p)))) order h' t ∧
      ∀ m ∈ s.net, m ∈ t.net := by
  let rsp : CommandRsp := ⟨p, q, ⟨u, .lock⟩, true, l⟩
  obtain ⟨mapped, event⟩ := st.eventOf hp hq
  have open_ : ((s.peers p).withResponse rsp).locksAquired = false := by
    rw [← Bool.not_eq_true, st.locksAquired hp hq rfl]
    exact missing
  have meets : Serves cfg h s ⟨p, .recv (.commandRsp rsp), silent⟩ := by
    refine st.serves_response rfl fun completes ↦ ?_
    exact absurd (Bool.and_eq_true_iff.mp completes).2 (Bool.eq_false_iff.mp open_)
  have returns : Returns (dispatch silent (.commandRsp rsp)) (s.enclave p) :=
    returns_recvCommandRsp true rsp (st.inLog p) fun takes ↦ by simp [Peer.takesAbort, rsp] at takes
  obtain ⟨h', t, stands, net⟩ := st.deliver alone [] hp sent meets returns
    (writes_recvCommandRsp_of_open (s := s.enclave p) (st.counts alone hp last fresh) mapped open_)
    rfl fun rsp hrsp ↦ nomatch hrsp
  rw [List.append_nil, Function.update_eq_self, show (s.enclave p).self = s.peers p from rfl,
    show rsp.source = q from rfl, event, show execs ([] : List (Note Uid Uid)) = [] from rfl,
    List.filter_nil, List.append_nil] at stands
  have held : {z | z ∈ (s.peers p).lockedEvents.insert y} = insert y (held (cfg.clusterOf p)) := by
    ext z
    rw [Set.mem_ofPred_eq, mem_set_insert_uid, st.held p hp z, Set.mem_insert_iff, eq_comm]
  rw [held] at stands
  exact ⟨h', t, stands, fun m hm ↦ net ▸ List.mem_append_left _ hm⟩

/-- With the last one the event executes, and all that are informed are told. -/
theorem complete (acquired : ∀ z ∈ (makeWorkflow cfg.workflow).getLockSet (cfg.clusterOf p),
      z = y ∨ z ∈ held (cfg.clusterOf p))
    (unexecuted : ∀ z, .exec (z, u) ∉ base)
    (locked : ∀ z ∈ (makeWorkflow cfg.workflow).getLockSet (cfg.clusterOf p),
      .lock (cfg.clusterOf p, u) ∈ ledgers z) :
    let x := cfg.clusterOf p
    ∃ h' t, Stands cfg (Function.update ledgers x (ledgers x ++ [.exec (x, u)]))
        (Function.update held x ∅) (order ++ [(x, u)]) h' t ∧ (∀ m ∈ s.net, m ∈ t.net) ∧
      ∀ y ∈ ((makeWorkflow cfg.workflow).getInformSet x).toList, ∀ q ∈ cfg.cluster y,
        .commandReq ⟨q, p, ⟨u, .exec⟩, x⟩ ∈ t.net := by
  intro x
  let rsp : CommandRsp := ⟨p, q, ⟨u, .lock⟩, true, l⟩
  obtain ⟨mapped, event⟩ := st.eventOf hp hq
  have own : (s.peers p).clusterEvent = x := st.run.clusterEvent p
  have acquired : ((s.peers p).withResponse rsp).locksAquired = true :=
    (st.locksAquired hp hq rfl).mpr acquired
  have executed : executed (s.peers p).log = execs (ledgers (cfg.clusterOf p)) :=
    congrArg execs (st.notes hp)
  have meets : Serves cfg h s ⟨p, .recv (.commandRsp rsp), silent⟩ := by
    refine st.serves_response rfl fun _ ↦ ⟨?_, ?_, fun z hz ↦ ?_⟩
    · rw [own, executed, mem_execs, last]
      simpa [rsp] using unexecuted x
    · rw [own, st.notes hp, last]
      simp [rsp, x]
    · rw [own, st.getLockSet hp, Std.ExtTreeSet.mem_toList] at hz
      obtain ⟨q', hq'⟩ := alone.covered.exists_mem
        (mem_events_of_mem_getInformSet (mem_getInformSet_of_mem_getLockSet hz))
      have member := (st.eventOf hp hq').1
      rw [(st.steered.routed p hp).peerToEventMap] at member
      rw [← Config.clusterOf_of_mem hq', st.ledger q' member, st.notes member, own]
      rw [Config.clusterOf_of_mem hq']
      exact locked z hz
  have returns : Returns (dispatch silent (.commandRsp rsp)) (s.enclave p) :=
    returns_recvCommandRsp true rsp (st.inLog p) fun takes ↦ by simp [Peer.takesAbort, rsp] at takes
  have answered : (s.peers p).answers ((s.peers p).ownEntry ⟨u, .exec⟩) = true := by
    simp [Peer.answers, Peer.ownEntry, Peer.ownLock]
  have announces := Peer.announces_of_answered (o := silent) answered (by simp [Peer.ownEntry])
  obtain ⟨h', t, stands, net⟩ := st.deliver alone [.exec (x, u)] hp sent meets returns
    (writes_recvCommandRsp_of_acquired (s := s.enclave p) (st.sole alone hp)
      (st.counts alone hp last fresh) mapped acquired)
    (by simp [note, Peer.ownEntry, own, show (s.enclave p).self = s.peers p from rfl])
    fun rsp' hrsp ↦ by
      rcases List.mem_append.mp hrsp with told | answer
      · obtain ⟨_, -, eq⟩ := List.mem_map.mp told
        simp at eq
      · rw [show (s.enclave p).self = s.peers p from rfl, announces] at answer
        obtain rfl := Message.commandRsp.inj (List.mem_singleton.mp answer)
        rfl
  rw [show execs [Note.exec (x, u)] = [(x, u)] from rfl, List.filter_cons_of_pos (by simp [x]),
    List.filter_nil] at stands
  have none : {z : Uid | z ∈ (∅ : UidSet)} = ∅ :=
    Set.eq_empty_of_forall_notMem fun z hz ↦ Std.ExtTreeSet.not_mem_empty hz
  rw [none] at stands
  refine ⟨h', t, stands, fun m hm ↦ net ▸ List.mem_append_left _ hm, fun y hy q hq ↦ ?_⟩
  rw [net, show (s.enclave p).self = s.peers p from rfl, own, st.getInformSet hp]
  exact List.mem_append_right _ (List.mem_append_left _ (st.mem_commandsTo alone hp hy hq))

end

end

/-! ### A whole execution -/

private theorem update_held (x : Uid) :
    Function.update (fun _ ↦ ∅) x ∅ = (fun _ ↦ ∅ : Uid → Set Uid) :=
  Function.update_eq_self (f := fun _ ↦ ∅) x

section
variable {base : Uid → List (Note Uid Uid)} {x u : Uid} (alone : cfg.Unreplicated)
  (hp : p ∈ cfg.cluster x)
include alone hp

/-- All events that are to be locked grant it. -/
theorem grantAll (st : Stands cfg (noted base (.lock (x, u)) {x}) (fun _ ↦ ∅) order h s)
    (resolved : ∀ y, Resolved (base y))
    (fresh : ∀ y z, .lock (z, u) ∉ base y ∧ .exec (z, u) ∉ base y) {locks : Set Uid}
    (finite : locks.Finite) (populated : ∀ y ∈ locks, ∃ q, q ∈ cfg.cluster y)
    (asked : ∀ y ∈ locks, ∀ q ∈ cfg.cluster y, .commandReq ⟨q, p, ⟨u, .lock⟩, x⟩ ∈ s.net) :
    ∃ h' t, Stands cfg (noted base (.lock (x, u)) (insert x locks)) (fun _ ↦ ∅) order h' t ∧
      ∀ y ∈ locks, ∃ q ∈ cfg.cluster y, ∃ l, .commandRsp ⟨p, q, ⟨u, .lock⟩, true, l⟩ ∈ t.net := by
  obtain rfl := Config.clusterOf_of_mem hp
  have peer := Config.mem_of_mem_cluster hp
  suffices ∃ h' t, Stands cfg (noted base (.lock (cfg.clusterOf p, u)) (insert (cfg.clusterOf p) locks))
      (fun _ ↦ ∅) order h' t ∧ (∀ m ∈ s.net, m ∈ t.net) ∧
      ∀ y ∈ locks, ∃ q ∈ cfg.cluster y, ∃ l, .commandRsp ⟨p, q, ⟨u, .lock⟩, true, l⟩ ∈ t.net by
    obtain ⟨h', t, stands, -, granted⟩ := this
    exact ⟨h', t, stands, granted⟩
  refine Set.Finite.induction_on_subset (motive := fun S _ ↦ ∃ h' t,
      Stands cfg (noted base (.lock (cfg.clusterOf p, u)) (insert (cfg.clusterOf p) S))
        (fun _ ↦ ∅) order h' t ∧ (∀ m ∈ s.net, m ∈ t.net) ∧
      ∀ y ∈ S, ∃ q ∈ cfg.cluster y, ∃ l, .commandRsp ⟨p, q, ⟨u, .lock⟩, true, l⟩ ∈ t.net)
    locks finite ?_ fun {y S} hy _ new ih ↦ ?_
  · rw [insert_empty_eq]
    exact ⟨h, s, st, fun _ hm ↦ hm, fun y hy ↦ absurd hy (Set.notMem_empty y)⟩
  · obtain ⟨h', t, stands, keeps, granted⟩ := ih
    obtain ⟨q, hq⟩ := populated y hy
    have sent := keeps _ (asked y hy q hq)
    obtain rfl := Config.clusterOf_of_mem hq
    by_cases own : q = p
    · subst own
      obtain ⟨h'', t', stands', more, grant⟩ := stands.regrant alone peer sent
        (noted_of_mem (Set.mem_insert _ _)) fun z ↦ (fresh _ z).1
      refine ⟨h'', t', by rwa [Set.insert_idem], fun m hm ↦ more m (keeps m hm), ?_⟩
      refine Set.forall_mem_insert.mpr ⟨⟨_, hq, _, grant⟩, fun y hy ↦ ?_⟩
      obtain ⟨r, hr, l, hl⟩ := granted y hy
      exact ⟨r, hr, l, more _ hl⟩
    · have foreign : cfg.clusterOf p ≠ cfg.clusterOf q := fun same ↦ own (alone.eq hp (same ▸ hq))
      have unlocked : cfg.clusterOf q ∉ insert (cfg.clusterOf p) S := by
        rw [Set.mem_insert_iff, not_or]
        exact ⟨foreign.symm, new⟩
      have ledger := noted_of_notMem (l := base) (n := .lock (cfg.clusterOf p, u)) unlocked
      obtain ⟨h'', t', stands', more, grant⟩ := stands.grant alone (Config.mem_of_mem_cluster hq) sent
        foreign (by rw [ledger]; exact resolved _) (by rw [ledger]; exact fresh _)
      rw [← noted_insert unlocked, Set.insert_comm] at stands'
      refine ⟨h'', t', stands', fun m hm ↦ more m (keeps m hm), ?_⟩
      refine Set.forall_mem_insert.mpr ⟨⟨_, hq, _, grant⟩, fun y hy ↦ ?_⟩
      obtain ⟨r, hr, l, hl⟩ := granted y hy
      exact ⟨r, hr, l, more _ hl⟩

/-- As long as one lock is missing, the others are held as they are granted. -/
theorem countAll {ledger : List (Note Uid Uid)} (st : Stands cfg ledgers (fun _ ↦ ∅) order h s)
    (last : ledgers x = ledger ++ [.lock (x, u)]) (fresh : ∀ z, .lock (z, u) ∉ ledger) {missing : Uid}
    (needed : missing ∈ (makeWorkflow cfg.workflow).getLockSet x) {S : Set Uid} (finite : S.Finite)
    (notMem : missing ∉ S) (granted : ∀ y ∈ S, ∃ q ∈ cfg.cluster y, ∃ l,
      .commandRsp ⟨p, q, ⟨u, .lock⟩, true, l⟩ ∈ s.net) :
    ∃ h' t, Stands cfg ledgers (Function.update (fun _ ↦ ∅) x S) order h' t ∧
      ∀ m ∈ s.net, m ∈ t.net := by
  obtain rfl := Config.clusterOf_of_mem hp
  refine Set.Finite.induction_on_subset (motive := fun S _ ↦ ∃ h' t,
    Stands cfg ledgers (Function.update (fun _ ↦ ∅) (cfg.clusterOf p) S) order h' t ∧
      ∀ m ∈ s.net, m ∈ t.net) S finite ?_ fun {y T} hy sub _ ih ↦ ?_
  · exact ⟨h, s, by rwa [update_held], fun _ hm ↦ hm⟩
  · obtain ⟨h', t, stands, keeps⟩ := ih
    obtain ⟨q, hq, l, hl⟩ := granted y hy
    obtain ⟨h'', t', stands', more⟩ := stands.count alone (Config.mem_of_mem_cluster hp) (keeps _ hl)
      hq last fresh fun all ↦ by
        rcases all missing needed with rfl | held
        · exact notMem hy
        · rw [Function.update_self] at held
          exact notMem (sub held)
    rw [Function.update_idem, Function.update_self] at stands'
    exact ⟨h'', t', stands', fun m hm ↦ more m (keeps m hm)⟩

/-- When all are held, the event executes. -/
theorem lockAll (fresh : ∀ y z, .lock (z, u) ∉ base y ∧ .exec (z, u) ∉ base y) {locks : Set Uid}
    (lockSet : ∀ y, y ∈ (makeWorkflow cfg.workflow).getLockSet x ↔ y ∈ locks)
    (nonempty : locks.Nonempty) (finite : locks.Finite)
    (st : Stands cfg (noted base (.lock (x, u)) (insert x locks)) (fun _ ↦ ∅) order h s)
    (granted : ∀ y ∈ locks, ∃ q ∈ cfg.cluster y, ∃ l,
      .commandRsp ⟨p, q, ⟨u, .lock⟩, true, l⟩ ∈ s.net) :
    ∃ h' t, Stands cfg (noted (noted base (.lock (x, u)) (insert x locks)) (.exec (x, u)) {x})
        (fun _ ↦ ∅) (order ++ [(x, u)]) h' t ∧
      ∀ y ∈ ((makeWorkflow cfg.workflow).getInformSet x).toList, ∀ q ∈ cfg.cluster y,
        .commandReq ⟨q, p, ⟨u, .exec⟩, x⟩ ∈ t.net := by
  have last : noted base (.lock (x, u)) (insert x locks) x = base x ++ [.lock (x, u)] :=
    noted_of_mem (Set.mem_insert _ _)
  obtain ⟨y, hy⟩ := nonempty
  obtain ⟨h', t, stands, keeps⟩ := countAll (S := locks \ {y}) alone hp st last
    (fun z ↦ (fresh x z).1) ((lockSet y).mpr hy) (finite.subset Set.sdiff_subset) (fun hy ↦ hy.2 rfl)
    fun z hz ↦ granted z hz.1
  obtain ⟨q, hq, l, hl⟩ := granted y hy
  obtain rfl := Config.clusterOf_of_mem hp
  obtain ⟨h'', t', done, -, told⟩ := stands.complete alone (Config.mem_of_mem_cluster hp) (keeps _ hl)
    hq last (fun z ↦ (fresh _ z).1) (fun z hz ↦ by
      rw [Function.update_self, or_iff_not_imp_left]
      exact fun other ↦ ⟨(lockSet z).mp hz, other⟩)
    (fun z ↦ (fresh _ z).2) fun z hz ↦ by
      rw [noted_of_mem (Set.mem_insert_of_mem _ ((lockSet z).mp hz))]
      exact List.mem_append_right _ (List.mem_singleton_self _)
  rw [Function.update_idem, update_held, ← noted_singleton] at done
  exact ⟨h'', t', done, told⟩

/-- All that are to be informed log the execution. -/
theorem informAll {ledgers : Uid → List (Note Uid Uid)}
    (st : Stands cfg (noted ledgers (.exec (x, u)) {x}) (fun _ ↦ ∅) order h s)
    (fresh : ∀ y z, .exec (z, u) ∉ ledgers y)
    (inOrder : ∀ y, (execs (ledgers y) ++ [(x, u)]).Sublist order) {informs : Set Uid}
    (finite : informs.Finite) (populated : ∀ y ∈ informs, ∃ q, q ∈ cfg.cluster y)
    (told : ∀ y ∈ informs, ∀ q ∈ cfg.cluster y, .commandReq ⟨q, p, ⟨u, .exec⟩, x⟩ ∈ s.net) :
    ∃ h' t, Stands cfg (noted ledgers (.exec (x, u)) (insert x informs)) (fun _ ↦ ∅) order h' t := by
  obtain rfl := Config.clusterOf_of_mem hp
  suffices ∃ h' t, Stands cfg (noted ledgers (.exec (cfg.clusterOf p, u))
      (insert (cfg.clusterOf p) informs)) (fun _ ↦ ∅) order h' t ∧ ∀ m ∈ s.net, m ∈ t.net by
    obtain ⟨h', t, stands, -⟩ := this
    exact ⟨h', t, stands⟩
  refine Set.Finite.induction_on_subset (motive := fun S _ ↦ ∃ h' t,
      Stands cfg (noted ledgers (.exec (cfg.clusterOf p, u)) (insert (cfg.clusterOf p) S))
        (fun _ ↦ ∅) order h' t ∧ ∀ m ∈ s.net, m ∈ t.net)
    informs finite ?_ fun {y S} hy _ new ih ↦ ?_
  · rw [insert_empty_eq]
    exact ⟨h, s, st, fun _ hm ↦ hm⟩
  · obtain ⟨h', t, stands, keeps⟩ := ih
    obtain ⟨q, hq⟩ := populated y hy
    have sent := keeps _ (told y hy q hq)
    obtain rfl := Config.clusterOf_of_mem hq
    by_cases own : cfg.clusterOf q = cfg.clusterOf p
    · rw [own, Set.insert_idem]
      exact ⟨h', t, stands, keeps⟩
    · have uninformed : cfg.clusterOf q ∉ insert (cfg.clusterOf p) S := by
        rw [Set.mem_insert_iff, not_or]
        exact ⟨own, new⟩
      have ledger := noted_of_notMem (l := ledgers) (n := .exec (cfg.clusterOf p, u)) uninformed
      obtain ⟨h'', t', stands', more⟩ := stands.inform alone (Config.mem_of_mem_cluster hq) sent
        (Ne.symm own) (by rw [ledger]; exact fresh _) (by rw [ledger]; exact inOrder _)
      rw [← noted_insert uninformed, Set.insert_comm] at stands'
      exact ⟨h'', t', stands', fun m hm ↦ more m (keeps m hm)⟩

end

variable {x u : Uid} (alone : cfg.Unreplicated) (tells : cfg.Tells)
include alone tells

/-- What is enabled after all executions so far can be executed. -/
theorem execution (st : Stands cfg (fun y ↦ records cfg.graph y order) (fun _ ↦ ∅) order h s)
    (hx : x ∈ cfg.workflow.eventIds) (fresh : u ∉ order.map Prod.snd)
    (declared : ∀ y ∈ order, y.1 ∈ cfg.workflow.eventIds)
    (enabled : Enabled cfg.graph (Theory.Dcr.run cfg.graph cfg.marking (order.map Prod.fst)) x) :
    ∃ h' t, Stands cfg (fun y ↦ records cfg.graph y (order ++ [(x, u)])) (fun _ ↦ ∅)
      (order ++ [(x, u)]) h' t := by
  obtain ⟨p, hp⟩ := alone.covered.exists_mem (IntermediateDcrWorkflow.mem_events.mpr (Or.inl hx))
  obtain rfl := Config.clusterOf_of_mem hp
  have peer := Config.mem_of_mem_cluster hp
  have unnoted (y z : Uid) : .lock (z, u) ∉ records cfg.graph y order ∧
      .exec (z, u) ∉ records cfg.graph y order :=
    ⟨fun hz ↦ fresh (List.mem_map.mpr ⟨_, lock_mem_records hz, rfl⟩),
      fun hz ↦ fresh (List.mem_map.mpr ⟨_, exec_mem_records hz, rfl⟩)⟩
  have resolved (y : Uid) : Resolved (records cfg.graph y order) := resolved_records
  obtain ⟨h₁, s₁, st₁, -, asked⟩ := st.ask alone peer (u := u)
  obtain ⟨h₂, s₂, -, began⟩ := st₁.begin alone peer asked (resolved _) (unnoted _)
    (fun y hy ↦ declared y (execs_records_sublist.subset hy)) (enabledAfter_records.mpr enabled)
  by_cases none : ((makeWorkflow cfg.workflow).getLockSet (cfg.clusterOf p)).size = 0
  · rw [if_pos none] at began
    have informs : informSet cfg.graph (cfg.clusterOf p) = ∅ := by
      refine Set.eq_empty_of_forall_notMem fun y hy ↦ ?_
      have hy := Std.ExtTreeSet.mem_toList.mpr ((mem_getInformSet _ _ _).mpr hy)
      rw [List.length_eq_zero_iff.mp (Std.ExtTreeSet.length_toList.trans (tells _ hx none))] at hy
      exact nomatch hy
    rw [records_concat_of_empty (x := (cfg.clusterOf p, u)) informs, noted_singleton]
    exact ⟨h₂, s₂, began⟩
  · rw [if_neg none] at began
    obtain ⟨st₂, asked⟩ := began
    have locks (y : Uid) := mem_getLockSet (makeWorkflow cfg.workflow) (cfg.clusterOf p) y
    have informs (y : Uid) := mem_getInformSet (makeWorkflow cfg.workflow) (cfg.clusterOf p) y
    have nonempty : (lockSet cfg.graph (cfg.clusterOf p)).Nonempty := by
      obtain ⟨y, hy⟩ := List.exists_mem_of_length_pos (l := (makeWorkflow cfg.workflow).getLockSet
        (cfg.clusterOf p) |>.toList) (by rw [Std.ExtTreeSet.length_toList]; omega)
      exact ⟨y, (locks y).mp (Std.ExtTreeSet.mem_toList.mp hy)⟩
    have finiteLocks : (lockSet cfg.graph (cfg.clusterOf p)).Finite :=
      (List.finite_toSet _).subset fun y hy ↦ Std.ExtTreeSet.mem_toList.mpr ((locks y).mpr hy)
    have finiteInforms : (informSet cfg.graph (cfg.clusterOf p)).Finite :=
      (List.finite_toSet _).subset fun y hy ↦ Std.ExtTreeSet.mem_toList.mpr ((informs y).mpr hy)
    have populated (y : Uid) (hy : y ∈ informSet cfg.graph (cfg.clusterOf p)) :
        ∃ q, q ∈ cfg.cluster y :=
      alone.covered.peers_of_mem_getInformSet ((informs y).mpr hy)
    rw [← noted_singleton] at st₂
    obtain ⟨h₃, s₃, st₃, granted⟩ := grantAll alone hp st₂ resolved unnoted
      finiteLocks (fun y hy ↦ populated y (Or.inl (Or.inl hy)))
      fun y hy ↦ asked y (Std.ExtTreeSet.mem_toList.mpr ((locks y).mpr hy))
    obtain ⟨h₄, s₄, st₄, told⟩ := lockAll alone hp unnoted locks nonempty finiteLocks st₃ granted
    obtain ⟨h₅, s₅, st₅⟩ := informAll alone hp st₄
      (fun y z ↦ by
        rw [← mem_execs, execs_noted_lock, mem_execs]
        exact (unnoted y z).2)
      (fun y ↦ by
        rw [execs_noted_lock]
        exact execs_records_sublist.append (List.Sublist.refl _))
      finiteInforms populated
      fun y hy ↦ told y (Std.ExtTreeSet.mem_toList.mpr ((informs y).mpr hy))
    rw [records_concat_of_nonempty (x := (cfg.clusterOf p, u)) nonempty]
    exact ⟨h₅, s₅, st₅⟩

/-- Every legal order is reached. -/
theorem exists_of_runs (distinct : (order.map Prod.snd).Nodup)
    (declared : ∀ x ∈ order, x.1 ∈ cfg.workflow.eventIds)
    (legal : Runs cfg.graph cfg.marking (order.map Prod.fst)) :
    ∃ h s, Stands cfg (fun y ↦ records cfg.graph y order) (fun _ ↦ ∅) order h s := by
  induction order using List.reverseRecOn with
  | nil => exact ⟨[], _, .initial alone⟩
  | append_singleton order x ih =>
    rw [List.map_append] at legal distinct
    obtain ⟨before, enabled, -⟩ := runs_append.mp legal
    obtain ⟨distinct, -, new⟩ := List.nodup_append.mp distinct
    have declaredBefore (y) (hy : y ∈ order) := declared y (List.mem_append_left _ hy)
    obtain ⟨h, s, st⟩ := ih distinct declaredBefore before
    exact st.execution alone tells (declared x (List.mem_append_right _ (List.mem_singleton_self x)))
      (fun hx ↦ new _ hx _ (List.mem_singleton_self _) rfl) declaredBefore enabled

end Stands

/-- Where every event has one peer, and none that locks nothing informs another, the executions of
the runs that execute in order are the legal orders of the workflow, all of them. -/
theorem executions_iff_legal {cfg : Config} (alone : cfg.Unreplicated) (tells : cfg.Tells)
    {order : List (Uid × Uid)} (distinct : (order.map Prod.snd).Nodup) :
    (∃ h s, Run cfg (ExecutesInOrder cfg) h s ∧ executions cfg h s = order) ↔
      (∀ x ∈ order, x.1 ∈ cfg.workflow.eventIds) ∧
        EnabledInTurn (makeWorkflow cfg.workflow) (order.map Prod.fst) := by
  have inTurn (declared : ∀ x ∈ order, x.1 ∈ cfg.workflow.eventIds) :
      EnabledInTurn (makeWorkflow cfg.workflow) (order.map Prod.fst) ↔
        Runs cfg.graph cfg.marking (order.map Prod.fst) :=
    (makeWorkflow_wellFormed cfg.workflow).enabledInTurn_iff fun e he ↦ by
      obtain ⟨x, hx, rfl⟩ := List.mem_map.mp he
      exact declared x hx
  constructor
  · rintro ⟨h, s, run, rfl⟩
    have declared : ∀ x ∈ executions cfg h s, x.1 ∈ cfg.workflow.eventIds := fun x hx ↦ by
      obtain ⟨p, hp⟩ := exists_mem_cluster_of_execution (run.mono fun _ _ _ meets ↦ meets.1) hx
      exact alone.populated.declared hp
    exact ⟨declared, (inTurn declared).mpr (run.serial alone.populated).legal⟩
  · rintro ⟨declared, legal⟩
    obtain ⟨h, s, st⟩ := Stands.exists_of_runs alone tells distinct declared
      ((inTurn declared).mp legal)
    exact ⟨h, s, st.ordered, st.order⟩

/-- Either rival executes, and never both. -/
theorem rivals_executions_iff_legal :
    (∃ h s, Run rivals (ExecutesInOrder rivals) h s ∧
        executions rivals h s = [(⟨0, 2⟩, ⟨0, 102⟩)]) ∧
      ¬∃ h s, Run rivals (ExecutesInOrder rivals) h s ∧
        executions rivals h s = [(⟨0, 2⟩, ⟨0, 102⟩), (⟨0, 1⟩, ⟨0, 101⟩)] := by
  have alone : rivals.Unreplicated := by decide +kernel
  have tells : rivals.Tells := by decide +kernel
  refine ⟨(executions_iff_legal alone tells (by decide)).mpr ⟨by decide, by decide +kernel⟩,
    fun both ↦ ?_⟩
  have illegal := ((executions_iff_legal alone tells (by decide)).mp both).2
  exact absurd illegal (by decide +kernel)

end TrustedDcr.System
