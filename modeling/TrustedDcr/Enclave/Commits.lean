import TrustedDcr.Enclave.Parts
import TrustedDcr.Enclave.Bounds

/-!
# What a commitment sends and executes

`update_commit_index` has one loop for a leader and one for the others. The leader's
collects a response for each entry that is neither a CHECKPOINT nor a LOCK of the own
event, but assigns none for an ABORT. Both execute the EXEC entries in order, however
the entries are divided into calls.
-/

namespace TrustedDcr.Msg

/-- `command_rsp_t`. -/
def Message.response : Message → Option CommandRsp
  | .commandRsp rsp => some rsp
  | _ => none

/-- `command_req_t`. -/
def Message.request : Message → Option CommandReq
  | .commandReq req => some req
  | _ => none

end TrustedDcr.Msg

namespace TrustedDcr.Enclave
open TrustedDcr.Msg TrustedDcr.Dcr TrustedDcr.Dcr.DcrWorkflow TrustedDcr.Theory

variable {o : Oracle} {s : EnclaveState}

/-! ### Responses and LOCK requests -/

namespace Peer

/-- The entry is a LOCK of the own event. -/
def ownLock (p : Peer) (entry : Entry) : Bool :=
  uidsEqual entry.event p.clusterEvent && entry.tag.type == .lock

/-- The entry is answered when it is committed. -/
def answers (p : Peer) (entry : Entry) : Bool :=
  entry.tag.type != .checkpoint && !p.ownLock entry

/-- The responses the leader's loop collects from the given round on. -/
def collected (p : Peer) (o : Oracle) : Nat → List Entry → List CommandRsp
  | _, [] => []
  | round, entry :: entries =>
    if p.answers entry then
      (if entry.tag.type = .abort then o.junkRsp round else commitRsp p.id entry) ::
        p.collected o (round + 1) entries
    else p.collected o (round + 1) entries

/-- The LOCK requests to the lock set of the own event. -/
def lockCommands (p : Peer) (o : Oracle) (tagId : Uid) : List CommandReq :=
  p.commandsTo o ⟨tagId, .lock⟩ (p.workflow.getLockSet p.clusterEvent).toList

/-- The LOCK requests for the own LOCKs among the entries. -/
def lockRequests (p : Peer) (o : Oracle) (entries : List Entry) : List CommandReq :=
  (entries.filter p.ownLock).flatMap fun entry ↦ p.lockCommands o entry.tag.uid

/-- What the responses and the LOCK requests depend on. -/
def commander (o : Oracle) (p : Peer) : Uid × Uid × (CommandTag → Uid → Uid) × UidSet :=
  (p.id, p.clusterEvent, p.leaderFor o, p.workflow.getLockSet p.clusterEvent)

variable {p q : Peer}

/-- Peers that command alike collect the same responses. -/
theorem collected_of_commander (h : q.commander o = p.commander o) (round : Nat)
    (entries : List Entry) : q.collected o round entries = p.collected o round entries := by
  have hid : q.id = p.id := congrArg Prod.fst h
  have hevent : q.clusterEvent = p.clusterEvent := congrArg (fun c ↦ c.2.1) h
  induction entries generalizing round with
  | nil => rfl
  | cons entry entries ih =>
    unfold collected answers ownLock
    rw [hid, hevent, ih]

private theorem lockCommands_of_commander (h : q.commander o = p.commander o) :
    q.lockCommands o = p.lockCommands o := by
  have hid : q.id = p.id := congrArg Prod.fst h
  have hevent : q.clusterEvent = p.clusterEvent := congrArg (fun c ↦ c.2.1) h
  have hleader : q.leaderFor o = p.leaderFor o := congrArg (fun c ↦ c.2.2.1) h
  have hset : q.workflow.getLockSet q.clusterEvent = p.workflow.getLockSet p.clusterEvent :=
    congrArg (fun c ↦ c.2.2.2) h
  funext tagId
  unfold lockCommands commandsTo command
  rw [hid, hset, hleader, hevent]

/-- Peers that command alike send the same LOCK requests. -/
theorem lockRequests_of_commander (h : q.commander o = p.commander o) (entries : List Entry) :
    q.lockRequests o entries = p.lockRequests o entries := by
  have hevent : q.clusterEvent = p.clusterEvent := congrArg (fun c ↦ c.2.1) h
  have hown : q.ownLock = p.ownLock := by
    funext entry
    unfold ownLock
    rw [hevent]
  unfold lockRequests
  rw [hown, lockCommands_of_commander h]

private theorem collected_cons (round : Nat) (entry : Entry) (entries : List Entry) :
    p.collected o round (entry :: entries) =
      p.collected o round [entry] ++ p.collected o (round + 1) entries := by
  by_cases answers : p.answers entry = true
  · simp [collected, answers]
  · simp [collected, answers]

/-- The LOCK requests of a batch are those of its entries, in order. -/
theorem lockRequests_cons (entry : Entry) (entries : List Entry) :
    p.lockRequests o (entry :: entries) = p.lockRequests o [entry] ++ p.lockRequests o entries := by
  by_cases own : p.ownLock entry = true
  · simp [lockRequests, own]
  · simp [lockRequests, own]

/-- Without an ABORT every response is the answer to its entry. -/
theorem collected_of_forall (round : Nat) {entries : List Entry}
    (h : ∀ e ∈ entries, e.tag.type ≠ .abort) :
    p.collected o round entries = (entries.filter p.answers).map (commitRsp p.id) := by
  induction entries generalizing round with
  | nil => rfl
  | cons entry entries ih =>
    obtain ⟨hentry, hentries⟩ := List.forall_mem_cons.mp h
    unfold collected
    rw [ih _ hentries, if_neg hentry]
    by_cases hanswers : p.answers entry = true
    · rw [if_pos hanswers, List.filter_cons_of_pos hanswers, List.map_cons]
    · rw [if_neg hanswers, List.filter_cons_of_neg hanswers]

/-- An ABORT is answered with whatever the response holds. -/
theorem exists_junkRsp_mem_collected (round : Nat) {entries : List Entry} {e : Entry}
    (he : e ∈ entries) (abort : e.tag.type = .abort) :
    ∃ r, o.junkRsp r ∈ p.collected o round entries := by
  induction entries generalizing round with
  | nil => exact nomatch he
  | cons entry entries ih =>
    unfold collected
    rcases List.mem_cons.mp he with rfl | he
    · have hanswers : p.answers e = true := by simp [answers, ownLock, abort]
      rw [if_pos hanswers, if_pos abort]
      exact ⟨round, List.mem_cons_self⟩
    · obtain ⟨r, hr⟩ := ih (round + 1) he
      refine ⟨r, ?_⟩
      split
      · exact List.mem_cons_of_mem _ hr
      · exact hr

/-- The lock set lies in the relations. -/
theorem commander_of_sameGraph {w : DcrWorkflow} (graph : SameGraph p.workflow w) :
    { p with workflow := w }.commander o = p.commander o := by
  have hset : w.getLockSet p.clusterEvent = p.workflow.getLockSet p.clusterEvent := by
    rw [graph]
    rfl
  unfold commander
  dsimp only
  rw [hset]
  rfl

/-- Filing requests names the same leaders. -/
theorem commander_of_filed {reqs : List CommandReq} {t : EnclaveState} (h : Filed o reqs s t) :
    t.self.commander o = s.self.commander o := by
  obtain ⟨⟨leaders, rfl⟩, hleaders⟩ := h
  have hleader := funext hleaders
  unfold commander
  rw [hleader]

end Peer

/-- The LOCK requests for one entry. -/
theorem sendLockRequests_spec (tagId : Uid) (s : EnclaveState) :
    wp (sendLockRequests o tagId) (fun _ t ↦ t.self.commander o = s.self.commander o ∧
      t.sent = s.sent ++ (s.self.lockCommands o tagId).map .commandReq) s := by
  unfold sendLockRequests
  rw [wp_bind, wp_getSelf]
  refine wp_mono (filed_sendCommands _ _ s) ?_
  rintro _ _ ⟨u, filed, rfl⟩
  have hu : u.self.commander o = s.self.commander o := Peer.commander_of_filed filed
  exact ⟨hu, rfl⟩

/-- The leader's loop sends the LOCK requests and hands back the responses. -/
theorem commitEntries_spec (round : Nat) (entries : List Entry) (s : EnclaveState) :
    wp (commitEntries o round entries) (fun rsps t ↦
      rsps = s.self.collected o round entries ∧
      t.sent = s.sent ++ (s.self.lockRequests o entries).map .commandReq) s := by
  induction entries generalizing round s with
  | nil => exact wp_pure.mpr ⟨rfl, (List.append_nil _).symm⟩
  | cons entry entries ih =>
    have one : wp (commitEntry o round entry) (fun rsp t ↦
        t.self.commander o = s.self.commander o ∧
        rsp.toList = s.self.collected o round [entry] ∧
        t.sent = s.sent ++ (s.self.lockRequests o [entry]).map .commandReq) s := by
      refine wp_commitEntry ?_ ?_ ?_ ?_ ?_
      · intro type
        exact ⟨rfl, by simp [Peer.collected, Peer.answers, type],
          by simp [Peer.lockRequests, Peer.ownLock, type]⟩
      · intro type own
        refine wp_mono (sendLockRequests_spec entry.tag.uid s) fun _ t ⟨ht, sent⟩ ↦ ?_
        exact ⟨ht, by simp [Peer.collected, Peer.answers, Peer.ownLock, own, type],
          by simp [sent, Peer.lockRequests, Peer.ownLock, own, type]⟩
      · intro type foreign
        exact ⟨rfl, by simp [Peer.collected, Peer.answers, Peer.ownLock, foreign, type],
          by simp [Peer.lockRequests, Peer.ownLock, foreign]⟩
      · intro type
        exact ⟨Peer.commander_of_sameGraph (sameGraph_setEventExecuted _ _),
          by simp [Peer.collected, Peer.answers, Peer.ownLock, type],
          by simp [Peer.lockRequests, Peer.ownLock, type]⟩
      · intro type _ _
        exact ⟨rfl, by simp [Peer.collected, Peer.answers, Peer.ownLock, type],
          by simp [Peer.lockRequests, Peer.ownLock, type]⟩
    rw [wp_commitEntries_cons]
    refine wp_mono one fun rsp t ⟨ht, hrsp, sent⟩ ↦ wp_mono (ih _ t) ?_
    rintro _ u ⟨rfl, hu⟩
    rw [hu, hrsp, sent, Peer.collected_of_commander ht, Peer.lockRequests_of_commander ht,
      Peer.collected_cons _ entry entries, Peer.lockRequests_cons entry entries, List.map_append,
      List.append_assoc]
    exact ⟨rfl, rfl⟩

/-- The messages of a leader that commits entries: one answer for each entry to be answered, the
requests for its own LOCKs, and nothing else. -/
structure AnswersEach (o : Oracle) (p : Peer) (entries : List Entry) (ms : List Message) :
    Prop where
  responses : List.Forall₂ (fun (entry : Entry) (rsp : CommandRsp) ↦
      rsp.target = entry.source ∧ rsp.source = p.id ∧ rsp.tag = entry.tag ∧ rsp.success = true)
    (entries.filter p.answers) (ms.filterMap Message.response)
  requests : ms.filterMap Message.request = p.lockRequests o entries
  others : ∀ m ∈ ms, m.response.isSome = true ∨ m.request.isSome = true

/-- The messages of a call that sends the LOCK requests before the responses. -/
theorem answersEach_iff {p : Peer} {entries : List Entry} {rsps : List CommandRsp} :
    AnswersEach o p entries
      ((p.lockRequests o entries).map .commandReq ++ rsps.map .commandRsp) ↔
    List.Forall₂ (fun (entry : Entry) (rsp : CommandRsp) ↦ rsp.target = entry.source ∧
      rsp.source = p.id ∧ rsp.tag = entry.tag ∧ rsp.success = true)
      (entries.filter p.answers) rsps := by
  have responses : ((p.lockRequests o entries).map Message.commandReq ++
      rsps.map Message.commandRsp).filterMap Message.response = rsps := by
    simp [List.filterMap_append, List.filterMap_map, Function.comp_def, Message.response]
  have requests : ((p.lockRequests o entries).map Message.commandReq ++
      rsps.map Message.commandRsp).filterMap Message.request = p.lockRequests o entries := by
    simp [List.filterMap_append, List.filterMap_map, Function.comp_def, Message.request]
  constructor
  · intro h
    have hrsps := h.responses
    rwa [responses] at hrsps
  · intro h
    refine ⟨by rwa [responses], requests, fun m hm ↦ ?_⟩
    rcases List.mem_append.mp hm with hm | hm
    · obtain ⟨req, -, rfl⟩ := List.mem_map.mp hm
      exact Or.inr rfl
    · obtain ⟨rsp, -, rfl⟩ := List.mem_map.mp hm
      exact Or.inl rfl

/-- The entries a call with the new index commits. -/
def Peer.newly (p : Peer) (newIndex : Nat) : List Entry :=
  (p.log.take (newIndex + 1)).drop (p.commitIndex + 1)

/-- They lie after the commit index, up to the new one. -/
theorem Peer.forall_newly {p : Peer} {n : Nat} {P : Entry → Prop} :
    (∀ i e, p.commitIndex < i → i ≤ n → p.log[i]? = some e → P e) ↔ ∀ e ∈ p.newly n, P e := by
  unfold newly
  constructor
  · intro h e he
    obtain ⟨k, hk⟩ := List.getElem?_of_mem he
    rw [List.getElem?_drop, List.getElem?_take] at hk
    split at hk
    · next hlt => exact h _ e (by omega) (by omega) hk
    · exact nomatch hk
  · intro h i e hi hn he
    apply h
    apply List.mem_of_getElem? (i := i - (p.commitIndex + 1))
    rw [List.getElem?_drop, List.getElem?_take, if_pos (by omega),
      show p.commitIndex + 1 + (i - (p.commitIndex + 1)) = i by omega]
    exact he

/-- What a leader sends when it commits. -/
theorem updateCommitIndex_sent {n : Nat} (leads : s.self.role = .leader) :
    wp (updateCommitIndex o n) (fun _ t ↦ t.sent = s.sent ++
      ((s.self.lockRequests o (s.self.newly n)).map .commandReq ++
        (s.self.collected o 0 (s.self.newly n)).map .commandRsp)) s := by
  unfold updateCommitIndex
  rw [wp_bind, wp_getSelf, wp_bind, wp_lift]
  intro committed hcommitted
  obtain rfl : committed = s.self.newly n := newlyCommitted_ok hcommitted
  rw [if_neg (by simp [leads]), wp_bind]
  refine wp_mono (commitEntries_spec 0 _ s) ?_
  rintro _ t ⟨rfl, ht⟩
  rw [wp_bind, wp_macAndBroadcastMsgs, wp_modifySelf]
  dsimp only
  rw [ht, List.append_assoc]

/-- A leader answers each entry it commits, whatever an unassigned response holds, exactly when no
ABORT is among them. `src/enclave/enclave.cpp:367–416`. -/
theorem updateCommitIndex_answersEach_iff {n : Nat} (leads : s.self.role = .leader)
    (inside : n < s.self.log.length) :
    (∀ o, Runs (updateCommitIndex o n) (fun _ t ↦ ∃ ms, t.sent = s.sent ++ ms ∧
      AnswersEach o s.self (s.self.newly n) ms) s) ↔
    ∀ i e, s.self.commitIndex < i → i ≤ n → s.self.log[i]? = some e → e.tag.type ≠ .abort := by
  rw [Peer.forall_newly]
  constructor
  · intro answers e he abort
    obtain ⟨_, t, returns, ms, hms, each⟩ := answers silent
    have sent : t.sent = _ := updateCommitIndex_sent leads _ _ returns
    rw [hms] at sent
    obtain rfl := List.append_cancel_left sent
    obtain ⟨r, hr⟩ := Peer.exists_junkRsp_mem_collected (p := s.self) (o := silent) 0 he abort
    have success := forall_mem_of_forall₂ (answersEach_iff.mp each) (fun _ _ h ↦ h.2.2.2) _ hr
    exact nomatch success
  · intro other o
    have held : abortsHeld s.self.log s.self.lockedEntryIndex (s.self.newly n) = true :=
      abortsHeld_of_forall other
    obtain ⟨a, t, returns⟩ := returns_updateCommitIndex (o := o) inside
      (fun _ ↦ Or.inr other) fun _ ↦ held
    refine ⟨a, t, returns, _, updateCommitIndex_sent leads a t returns, ?_⟩
    rw [answersEach_iff, Peer.collected_of_forall 0 other, List.forall₂_map_right_iff,
      List.forall₂_same]
    exact fun e _ ↦ ⟨rfl, rfl, rfl, rfl⟩

/-- A leader that holds the lock at position 1 with entries yet to commit. -/
def committing (entries : List Entry) : EnclaveState where
  self := { Peer.zero with
    id := ⟨0, 11⟩
    clusterEvent := ⟨0, 1⟩
    role := .leader
    commitIndex := 1
    lockedEntryIndex := 1
    log := [getEmptyEntry, ⟨1, 0, ⟨0, 2⟩, ⟨0, 21⟩, ⟨⟨0, 101⟩, .lock⟩⟩] ++ entries }
  sent := []
  returned := []
  drawn := []

/-- It confirms an execution and a lock of another event, and asks that event for its own lock. -/
theorem committing_answersEach :
    let entries : List Entry := [⟨2, 0, ⟨0, 2⟩, ⟨0, 21⟩, ⟨⟨0, 101⟩, .exec⟩⟩,
      ⟨3, 0, ⟨0, 1⟩, ⟨0, 11⟩, ⟨emptyUid, .checkpoint⟩⟩,
      ⟨4, 0, ⟨0, 2⟩, ⟨0, 21⟩, ⟨⟨0, 102⟩, .lock⟩⟩, ⟨5, 0, ⟨0, 1⟩, ⟨0, 11⟩, ⟨⟨0, 103⟩, .lock⟩⟩]
    let s : EnclaveState := { committing entries with
      self := { (committing entries).self with
        workflow := { DcrWorkflow.empty with
          excludesTo := (∅ : Relation).insert ⟨0, 1⟩ [⟨0, 2⟩] } } }
    ∀ o, Runs (updateCommitIndex o 5) (fun _ t ↦ ∃ ms, t.sent = s.sent ++ ms ∧
      AnswersEach o s.self (s.self.newly 5) ms) s := by
  intro entries s
  exact (updateCommitIndex_answersEach_iff (s := s) rfl (by decide)).mpr
    (Peer.forall_newly.mpr (by decide))

/-- The confirmation of an ABORT is a response that no case has assigned. -/
theorem not_answersEach : ¬ ∀ (o : Oracle) (s : EnclaveState) (n : Nat),
    s.self.role = .leader → s.self.commitIndex < n → n < s.self.log.length →
    Runs (updateCommitIndex o n) (fun _ t ↦ ∃ ms, t.sent = s.sent ++ ms ∧
      AnswersEach o s.self (s.self.newly n) ms) s := by
  intro claim
  let s := committing [⟨2, 0, ⟨0, 2⟩, ⟨0, 21⟩, ⟨⟨0, 101⟩, .abort⟩⟩]
  let junk := silent.junkRsp 0
  obtain ⟨_, t, returns, ms, hms, each⟩ := claim silent s 2 rfl (by decide) (by decide)
  have sent : (updateCommitIndex silent 2 s).map (fun r ↦ r.2.sent) =
      .ok [.commandRsp junk] := by
    decide +kernel
  rw [returns] at sent
  obtain rfl : ms = [.commandRsp junk] := hms.symm.trans (Except.ok.inj sent)
  have success := forall_mem_of_forall₂ each.responses (fun _ _ h ↦ h.2.2.2) junk
    List.mem_cons_self
  exact nomatch success

/-! ### Batches -/

/-- A call of `update_commit_index`, with the role it is made in. -/
structure Batch where
  index : Nat
  role : Role
  oracle : Oracle

/-- One call after another, each in its own role. -/
def commitBatches : List Batch → Ecall Unit
  | [] => return
  | batch :: batches => do
    modifySelf fun p ↦ { p with role := batch.role }
    updateCommitIndex batch.oracle batch.index
    commitBatches batches

/-- The events of the EXEC entries at the positions after `i`, up to `n`. -/
def Peer.executions (p : Peer) (i n : Nat) : List Uid :=
  (((p.log.take (n + 1)).drop (i + 1)).filter fun e ↦ e.tag.type == .exec).map (·.event)

/-- The loops execute the EXEC entries in order. -/
theorem executeEntries_eq (w : DcrWorkflow) (entries : List Entry) : executeEntries w entries =
    ((entries.filter fun e ↦ e.tag.type == .exec).map (·.event)).foldl setEventExecuted w := by
  induction entries generalizing w with
  | nil => rfl
  | cons entry entries ih =>
    change executeEntries (if entry.tag.type = .exec then _ else w) entries = _
    rw [ih]
    by_cases exec : entry.tag.type = .exec
    · rw [if_pos exec, List.filter_cons_of_pos (by simp [exec]), List.map_cons, List.foldl_cons]
    · rw [if_neg exec, List.filter_cons_of_neg (by simp [exec])]

/-- Two sections of a log one after the other. -/
theorem section_append (log : List Entry) {i m n : Nat} (him : i ≤ m) (hmn : m ≤ n) :
    (log.take (m + 1)).drop (i + 1) ++ (log.take (n + 1)).drop (m + 1) =
      (log.take (n + 1)).drop (i + 1) := by
  have hfirst : (log.take (m + 1)).drop (i + 1) =
      ((log.take (n + 1)).drop (i + 1)).take (m - i) := by
    rw [List.take_drop, List.take_take, show min (i + 1 + (m - i)) (n + 1) = m + 1 by omega]
  have hsecond : (log.take (n + 1)).drop (m + 1) =
      ((log.take (n + 1)).drop (i + 1)).drop (m - i) := by
    rw [List.drop_drop, show i + 1 + (m - i) = m + 1 by omega]
  rw [hfirst, hsecond, List.take_append_drop]

/-- Calls with increasing indices end at the last of them, with the workflow that the entries up to
there leave, whatever the roles. -/
theorem commitBatches_spec (batches : List Batch) (s : EnclaveState)
    (increasing : (s.self.commitIndex :: batches.map Batch.index).Pairwise (· < ·)) :
    wp (commitBatches batches) (fun _ t ↦ s.self.commitIndex ≤ t.self.commitIndex ∧
      t.self.commitIndex = (batches.map Batch.index).getLastD s.self.commitIndex ∧
      SameReads (executeEntries s.self.workflow
        ((s.self.log.take (t.self.commitIndex + 1)).drop (s.self.commitIndex + 1)))
        t.self.workflow) s := by
  induction batches generalizing s with
  | nil =>
    refine wp_pure.mpr ⟨Nat.le_refl _, rfl, ?_⟩
    rw [List.drop_eq_nil_of_le (List.length_take_le _ _)]
    exact SameReads.refl _
  | cons batch batches ih =>
    obtain ⟨ahead, increasing⟩ := List.pairwise_cons.mp increasing
    have hlt : s.self.commitIndex < batch.index := ahead _ List.mem_cons_self
    unfold commitBatches
    refine wp_bind_modifySelf fun t ht ↦ ?_
    rw [wp_bind]
    refine wp_mono (updateCommitIndex_spec batch.oracle batch.index t) ?_
    rintro _ u ⟨v, executes, -, hu⟩
    have hcommit : u.self.commitIndex = batch.index := by rw [hu]
    have hlog : u.self.log = s.self.log := by
      rw [hu]
      exact (congrArg Node.log executes.node).trans (congrArg (fun x ↦ x.self.log) ht)
    have hreads : SameReads (executeEntries s.self.workflow
        ((s.self.log.take (batch.index + 1)).drop (s.self.commitIndex + 1))) u.self.workflow := by
      rw [hu]
      have := executes.workflow
      rwa [ht] at this
    refine wp_mono (ih u (by rwa [hcommit])) ?_
    rintro _ w ⟨hle, hlast, hw⟩
    rw [hcommit] at hle hlast hw
    refine ⟨by omega, ?_, ?_⟩
    · rw [hlast, List.map_cons, List.getLastD_cons]
    · rw [← section_append s.self.log (Nat.le_of_lt hlt) hle, executeEntries_append]
      rw [hlog] at hw
      exact (sameReads_executeEntries hreads _).trans hw

/-- Committing up to an index in any increasing sequence of calls, each as a leader or not, leaves
the marks that executing the EXEC entries in order leaves, and so does one call.
`src/enclave/enclave.cpp:351–417`. -/
theorem commitBatches_marks {batches : List Batch} {n : Nat} (s : EnclaveState)
    (increasing : (s.self.commitIndex :: batches.map Batch.index).Pairwise (· < ·))
    (last : (batches.map Batch.index).getLast? = some n) :
    wp (commitBatches batches) (fun _ t ↦ t.self.commitIndex = n ∧
      (∀ event, t.self.workflow.event event =
        ((s.self.executions s.self.commitIndex n).foldl setEventExecuted
          s.self.workflow).event event) ∧
      ∀ role o, wp (commitBatches [⟨n, role, o⟩]) (fun _ u ↦ u.self.commitIndex = n ∧
        ∀ event, u.self.workflow.event event = t.self.workflow.event event) s) s := by
  refine wp_mono (commitBatches_spec batches s increasing) ?_
  rintro _ t ⟨-, hcommit, ht⟩
  have hn : t.self.commitIndex = n := by
    rw [hcommit, List.getLastD_eq_getLast?, last]
    rfl
  rw [hn, executeEntries_eq] at ht
  refine ⟨hn, ht.event, fun role o ↦ ?_⟩
  have hlt : s.self.commitIndex < n :=
    (List.pairwise_cons.mp increasing).1 n (List.mem_of_getLast? last)
  refine wp_mono (commitBatches_spec [⟨n, role, o⟩] s (by simpa using hlt)) ?_
  rintro _ u ⟨-, hu, hreads⟩
  have hu : u.self.commitIndex = n := hu
  rw [hu, executeEntries_eq] at hreads
  exact ⟨hu, fun event ↦ (hreads.event event).trans (ht.event event).symm⟩

/-- Two executions committed one by one, by a leader and then by a follower, or at once. -/
theorem two_batches_marks :
    let s := committing [⟨2, 0, ⟨0, 2⟩, ⟨0, 21⟩, ⟨⟨0, 101⟩, .exec⟩⟩,
      ⟨3, 0, ⟨0, 3⟩, ⟨0, 31⟩, ⟨⟨0, 102⟩, .exec⟩⟩]
    ∃ t, commitBatches [⟨2, .leader, silent⟩, ⟨3, .follower, silent⟩] s = .ok ((), t) ∧
      t.self.commitIndex = 3 ∧
      (∀ event, t.self.workflow.event event =
        ((s.self.executions 1 3).foldl setEventExecuted s.self.workflow).event event) ∧
      ∀ role o, wp (commitBatches [⟨3, role, o⟩]) (fun _ u ↦ u.self.commitIndex = 3 ∧
        ∀ event, u.self.workflow.event event = t.self.workflow.event event) s := by
  intro s
  have returns : ((commitBatches [⟨2, .leader, silent⟩, ⟨3, .follower, silent⟩] s).map
      fun _ ↦ ()) = .ok () := by
    decide +kernel
  cases ht : commitBatches [⟨2, .leader, silent⟩, ⟨3, .follower, silent⟩] s with
  | error fault =>
    rw [ht] at returns
    exact nomatch returns
  | ok r =>
    obtain ⟨_, t⟩ := r
    exact ⟨t, rfl, commitBatches_marks (n := 3) s (by decide) rfl _ t ht⟩

end TrustedDcr.Enclave
