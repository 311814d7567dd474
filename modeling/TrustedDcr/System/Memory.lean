import TrustedDcr.Enclave.Memory
import TrustedDcr.System.Informing
import TrustedDcr.System.LockIndex
import TrustedDcr.System.Outstanding

/-!
# Attempts that a leader forgets

The log has the LOCK of an attempt, and the leader that commits it has the requests. A
new leader has neither sent them nor heard of the answers; and the requests of one
attempt give way to those of the next, to the EXEC of another and to whatever is filed
over them.
-/

namespace TrustedDcr.Enclave
open TrustedDcr.Msg TrustedDcr.Dcr TrustedDcr.Theory

namespace Peer

variable {o : Oracle} {p q : Peer} {rsp : CommandRsp}

/-- The requests of other attempts stay asked for where the handling files nothing over them. -/
theorem Asks.of_answered {uid event peer : Uid} (asks : p.Asks uid event peer)
    (mapped : ∀ {k v : Uid}, p.peerToEventMap[k]? = some v → q.peerToEventMap[k]? = some v)
    (after : q.missingResp = p.answered o rsp) (unfiled : ∀ req ∈ p.files o rsp, req.target ≠ peer)
    (unanswered : peer = rsp.source → (⟨uid, .lock⟩ : CommandTag) ≠ rsp.tag ∧ rsp.tag.type ≠ .exec) :
    q.Asks uid event peer := by
  obtain ⟨known, req, hreq, tag⟩ := asks
  refine ⟨mapped known, req, ?_, tag⟩
  rw [after]
  exact getElem?_answered peer req |>.mpr (Or.inr ⟨unfiled, hreq, tag.symm ▸ unanswered⟩)

/-- So do those asked for beside what is filed. -/
theorem AsksBeside.of_answered {uid event : Uid} {peers : List Uid}
    (asks : p.AsksBeside peers uid event)
    (mapped : ∀ {k v : Uid}, p.peerToEventMap[k]? = some v → q.peerToEventMap[k]? = some v)
    (after : q.missingResp = p.answered o rsp)
    (unfiled : ∀ req ∈ p.files o rsp, req.target ∈ peers)
    (unanswered : rsp.source ∈ peers ∨ (⟨uid, .lock⟩ : CommandTag) ≠ rsp.tag ∧ rsp.tag.type ≠ .exec) :
    ∃ peer, q.Asks uid event peer := by
  obtain ⟨peer, other, asks⟩ := asksBeside_iff.mp asks
  refine ⟨peer, asks.of_answered mapped after (fun req hreq same ↦ ?_) fun same ↦ ?_⟩
  · exact other (same ▸ unfiled req hreq)
  · exact unanswered.resolve_left fun h ↦ other (same ▸ h)

/-- What the handling of a response leaves in the maps of a leader and in its log. -/
structure Heard (o : Oracle) (rsp : CommandRsp) (p q : Peer) : Prop where
  missing : q.missingResp = p.answered o rsp
  locked : p.completesLocks rsp = false → ¬ p.abortsOn rsp → q.lockedEvents =
    if p.countsLock rsp then p.lockedEvents.insert (p.eventOf rsp.source) else p.lockedEvents
  completed : p.completesLocks rsp = true →
    ∃ e ∈ q.log.drop p.log.length, e.tag = ⟨rsp.tag.uid, .exec⟩
  aborted : p.abortsOn rsp → ∃ e ∈ q.log.drop p.log.length, e.tag = ⟨o.junkEntry.tag.uid, .abort⟩

section
variable (spares : p.SparesLocks o rsp) (pq : p.Continues q) (heard : Heard o rsp p q)

include spares pq heard

/-- The response that completes the locks ends its attempt. -/
theorem SparesLocks.remembers_of_complete (complete : p.completesLocks rsp = true) :
    q.Remembers := by
  have type : rsp.tag.type = .lock :=
    (countsLock_iff.mp (Bool.and_eq_true_iff.mp complete).1).2.2.2.1
  obtain ⟨e, he, tag⟩ := heard.completed complete
  refine (pq.everyLock (spares.complete complete)).mono fun uid event ⟨asks, unended⟩ ↦ ?_
  have other : uid ≠ rsp.tag.uid := by
    rintro rfl
    exact (unended e he).1 tag
  refine Or.inr ((asks.resolve_left other).of_answered pq.mapped heard.missing
    (fun req hreq ↦ List.mem_map_of_mem hreq) (Or.inr ⟨?_, by simp [type]⟩))
  exact fun same ↦ other (congrArg CommandTag.uid same)

/-- An abort ends the attempt whose identifier its entry happens to have. -/
theorem SparesLocks.remembers_of_aborts (aborts : p.abortsOn rsp) : q.Remembers := by
  obtain ⟨e, he, tag⟩ := heard.aborted aborts
  refine (pq.everyLock (spares.abort aborts)).mono fun uid event ⟨asks, unended⟩ ↦ ?_
  have other : uid ≠ o.junkEntry.tag.uid := by
    rintro rfl
    exact (unended e he).2 tag
  refine Or.inr ((asks.resolve_left other).of_answered pq.mapped heard.missing
    (fun req hreq ↦ List.mem_map_of_mem hreq) (Or.inr ⟨?_, by simp [aborts.2.1]⟩))
  exact fun same ↦ nomatch (congrArg CommandTag.type same).trans aborts.2.1

/-- An EXEC response removes what its source has outstanding. -/
theorem SparesLocks.remembers_of_exec (handles : p.Handles true rsp)
    (type : rsp.tag.type = .exec) (locked : q.lockedEvents = p.lockedEvents) : q.Remembers := by
  refine (pq.everyLock (spares.exec handles type)).mono fun uid event ⟨remembered, _⟩ ↦ ?_
  rcases remembered with acquired | asks
  · exact Or.inl (locked ▸ acquired)
  · exact Or.inr (asks.of_answered pq.mapped heard.missing (by simp [files, type])
      (Or.inl List.mem_cons_self))

/-- A LOCK response that does not count removes the request that it answers, and may be answered
itself. -/
theorem SparesLocks.remembers_of_not_counts (handles : p.Handles true rsp)
    (type : rsp.tag.type = .lock) (counts : p.countsLock rsp = false)
    (locked : q.lockedEvents = p.lockedEvents) : q.Remembers := by
  have complete : p.completesLocks rsp = false := by simp [completesLocks, counts]
  refine (pq.everyLock (spares.ignored handles type counts)).mono ?_
  rintro uid event ⟨remembered, -⟩
  rcases remembered with acquired | asks | ⟨unanswered, other, asks⟩
  · exact Or.inl (locked ▸ acquired)
  · refine Or.inr (asks.of_answered pq.mapped heard.missing (fun req hreq ↦ ?_)
      (Or.inl List.mem_cons_self))
    unfold files at hreq
    rw [type] at hreq
    dsimp only at hreq
    rw [complete, if_neg Bool.false_ne_true] at hreq
    split at hreq
    · rw [List.mem_singleton.mp hreq]
      exact List.mem_cons_self
    · cases hreq
  · refine Or.inr ⟨rsp.source, asks.of_answered pq.mapped heard.missing
      (by simp [files, type, complete, unanswered]) fun _ ↦ ⟨fun same ↦ ?_, by simp [type]⟩⟩
    exact other (congrArg CommandTag.uid same)

end

/-- A LOCK response that counts acquires the lock that it takes off the requests. -/
theorem Remembers.of_counts (remembers : p.Remembers) (pq : p.Continues q)
    (heard : Heard o rsp p q) (counts : p.countsLock rsp = true)
    (incomplete : p.completesLocks rsp = false)
    (locked : q.lockedEvents = p.lockedEvents.insert (p.eventOf rsp.source)) : q.Remembers := by
  have type : rsp.tag.type = .lock := (countsLock_iff.mp counts).2.2.2.1
  have unfiled : p.files o rsp = [] := by
    simp [files, type, incomplete, answersResolved_of_countsLock counts]
  refine (pq.everyLock remembers).mono fun uid event ⟨remembered, _⟩ ↦ ?_
  rcases remembered with acquired | ⟨peer, asks⟩
  · left
    rw [locked, Std.ExtTreeSet.mem_insert]
    exact Or.inr acquired
  · by_cases source : peer = rsp.source
    · subst source
      have known : p.eventOf rsp.source = event := by
        unfold eventOf
        rw [Std.ExtTreeMap.getD_eq_getD_getElem?, asks.1]
        rfl
      left
      rw [locked, known]
      exact Std.ExtTreeSet.mem_insert_self
    · exact Or.inr ⟨peer, asks.of_answered pq.mapped heard.missing (by simp [unfiled])
        fun same ↦ absurd same source⟩

/-- A response for which nothing is filed takes no LOCK request off, unless it is about a LOCK or an
EXEC. -/
theorem Remembers.of_unfiled (remembers : p.Remembers) (pq : p.Continues q)
    (heard : Heard o rsp p q) (unfiled : p.files o rsp = []) (exec : rsp.tag.type ≠ .exec)
    (lock : rsp.tag.type ≠ .lock) (locked : q.lockedEvents = p.lockedEvents) : q.Remembers := by
  refine (pq.everyLock remembers).mono fun uid event ⟨remembered, _⟩ ↦ ?_
  rcases remembered with acquired | ⟨peer, asks⟩
  · exact Or.inl (locked ▸ acquired)
  · refine Or.inr ⟨peer, asks.of_answered pq.mapped heard.missing (by simp [unfiled]) ?_⟩
    exact fun _ ↦ ⟨fun same ↦ lock (congrArg CommandTag.type same).symm, exec⟩

/-- A response that is handled leaves the locks of open attempts remembered where it spares them. -/
theorem SparesLocks.remembers (spares : p.SparesLocks o rsp) (handles : p.Handles true rsp)
    (remembers : p.Remembers) (pq : p.Continues q) (heard : Heard o rsp p q) : q.Remembers := by
  by_cases complete : p.completesLocks rsp = true
  · exact spares.remembers_of_complete pq heard complete
  by_cases aborts : p.abortsOn rsp
  · exact spares.remembers_of_aborts pq heard aborts
  have complete : p.completesLocks rsp = false := by simpa using complete
  have locked := heard.locked complete aborts
  by_cases counts : p.countsLock rsp = true
  · rw [if_pos counts] at locked
    exact remembers.of_counts pq heard counts complete locked
  rw [if_neg counts] at locked
  cases type : rsp.tag.type with
  | checkpoint =>
    exact remembers.of_unfiled pq heard (by simp [files, type]) (by simp [type]) (by simp [type])
      locked
  | abort =>
    have idle : p.startsAbort rsp.source = false := by
      rw [Bool.eq_false_iff]
      exact fun starts ↦ aborts ⟨handles, type, starts⟩
    exact remembers.of_unfiled pq heard (by simp [files, type, idle]) (by simp [type])
      (by simp [type]) locked
  | exec => exact spares.remembers_of_exec pq heard handles type locked
  | lock => exact spares.remembers_of_not_counts pq heard handles type (by simpa using counts) locked

/-- A redirect leaves them remembered. -/
theorem SparesLocks.remembers_of_redirects (spares : p.SparesLocks o rsp)
    (redirects : p.Redirects true rsp) (remembers : p.Remembers) (pq : p.Continues q)
    (locked : q.lockedEvents = p.lockedEvents) (after : q.missingResp = p.redirected rsp) :
    q.Remembers := by
  cases waits : p.missingResp[rsp.source]? with
  | none =>
    refine pq.remembers remembers locked ?_
    unfold redirected at after
    rwa [waits] at after
  | some req =>
    have moved : rsp.source ∈ p.missingResp := by
      rw [Std.ExtTreeMap.mem_iff_isSome_getElem?, waits]
      rfl
    refine (pq.everyLock (spares.redirect redirects req waits)).mono
      fun uid event ⟨remembered, _⟩ ↦ ?_
    rcases remembered with acquired | asks | ⟨tag, known⟩
    · exact Or.inl (locked ▸ acquired)
    · obtain ⟨peer, other, asks⟩ := asksBeside_iff.mp asks
      rw [List.mem_cons, List.mem_singleton, not_or] at other
      refine Or.inr ⟨peer, asks.of_eq pq.mapped ?_⟩
      rw [after, getElem?_redirected, if_neg fun h ↦ other.2 h.1.symm, if_neg (Ne.symm other.1)]
    · refine Or.inr ⟨rsp.leader, pq.mapped known, req, ?_, tag⟩
      rw [after, getElem?_redirected, if_pos ⟨rfl, moved⟩]
      exact waits

end Peer

end TrustedDcr.Enclave

namespace TrustedDcr.System
open TrustedDcr.Msg TrustedDcr.Dcr TrustedDcr.Enclave TrustedDcr.Theory

/-- The step leaves every lock of an open attempt acquired or asked for: what is committed, what a
response removes or files over, and what the winner of an election has from before. -/
def KeepsLocks (s : World) (a : Action) : Prop :=
  match a.call with
  | .recv (.commandReq _) => (s.peers a.peer).clusterSize = 1 →
    ∀ e ∈ (s.peers a.peer).appends a.oracle a.call, (s.peers a.peer).RemembersAt a.oracle
      ((s.peers a.peer).log ++ [e]) (s.peers a.peer).log.length
  | .recv (.commandRsp rsp) => (s.peers a.peer).SparesLocks a.oracle rsp
  | .recv (.appendRsp rsp) => ∀ n ∈ (s.peers a.peer).commits rsp,
    (s.peers a.peer).RemembersAt a.oracle (s.peers a.peer).log n
  | .recv (.electionRsp rsp) =>
    (s.peers a.peer).wins rsp = true → (s.peers a.peer).Remembers
  | _ => True

instance (s : World) (a : Action) : Decidable (KeepsLocks s a) := by
  unfold KeepsLocks
  induction a.call using Call.casesOn with
  | recv m => induction m using Message.casesOn <;> infer_instance
  | _ => infer_instance

/-- Since the peer came to lead, all its steps have kept the locks of its open attempts. -/
def LeadsKeeping (p : Uid) : Hist → World → Prop
  | [], _ => True
  | (s', a) :: h, s =>
    (s.peers p).role = .leader → LeadsKeeping p h s' ∧ (a.peer = p → KeepsLocks s' a)

instance decidableLeadsKeeping (p : Uid) : (h : Hist) → (s : World) → Decidable (LeadsKeeping p h s)
  | [], _ => .isTrue trivial
  | (s', a) :: h, _ =>
    have := decidableLeadsKeeping p h s'
    inferInstanceAs (Decidable (_ → LeadsKeeping p h s' ∧ (a.peer = p → KeepsLocks s' a)))

/-- What a call of a leader does to what it remembers, responses to commands apart, and that only
an election makes a leader. -/
theorem memory_body (o : Oracle) (c : Call) {s : EnclaveState}
    (settled : s.self.clusterSize = 1 → s.self.log.length = s.self.commitIndex + 1) :
    wp (c.body o) (fun _ t ↦ t.self.role = .leader →
      (s.self.role = .leader ∧ match c with
        | .recv (.commandReq _) | .recv (.appendRsp _) => FilesNewly o s t
        | .recv (.commandRsp _) => True
        | _ => t.self.memory = s.self.memory) ∨
      ∃ rsp, c = .recv (.electionRsp rsp) ∧ s.self.wins rsp = true ∧ Takes s t ∧
        t.self.memory = s.self.memory) s := by
  have led {x : Ecall Unit} (h : Along (Led Peer.memory) x) : wp x (fun _ t ↦
      t.self.role = .leader → s.self.role = .leader ∧ t.self.memory = s.self.memory) s := h s
  cases c with
  | setTime ticks =>
    refine wp_mono (calm_setTime ticks s) fun _ t calm leads ↦ ?_
    obtain ⟨leads, same⟩ := calm leads
    exact Or.inl ⟨leads, (same settled).1⟩
  | execute event =>
    exact wp_mono (led (apart_memory.led_execute event)) fun _ _ h leads ↦ Or.inl (h leads)
  | getHistory => exact wp_mono (led apart_memory.led_getHistory) fun _ _ h leads ↦ Or.inl (h leads)
  | recv msg =>
    cases msg with
    | commandReq req =>
      exact wp_mono (memory_recvCommandReq true req settled) fun _ _ h leads ↦ Or.inl (h leads)
    | commandRsp rsp =>
      exact wp_mono (walk_tenure.recvCommandRsp true rsp s) fun _ _ h leads ↦
        Or.inl ⟨(h.leads leads).1, trivial⟩
    | appendReq req =>
      exact wp_mono (led (apart_memory.led_recvAppendReq true req)) fun _ _ h leads ↦
        Or.inl (h leads)
    | appendRsp rsp =>
      exact wp_mono (memory_recvAppendRsp true rsp s) fun _ _ h leads ↦ Or.inl (h leads)
    | pollReq req => exact wp_mono (led (led_recvPollReq true req)) fun _ _ h leads ↦ Or.inl (h leads)
    | pollRsp rsp =>
      exact wp_mono (led (apart_memory.led_recvPollRsp true rsp)) fun _ _ h leads ↦ Or.inl (h leads)
    | electionReq req =>
      exact wp_mono (led (apart_memory.led_recvElectionReq true req)) fun _ _ h leads ↦
        Or.inl (h leads)
    | electionRsp rsp =>
      refine wp_mono (memory_recvElectionRsp true rsp s) fun _ t h leads ↦ ?_
      rcases h with led | elected
      · exact Or.inl (led leads)
      · exact Or.inr ⟨rsp, rfl, elected⟩
    | logReq req => exact wp_mono (led (led_recvLogReq true req)) fun _ _ h leads ↦ Or.inl (h leads)
    | logRsp rsp =>
      exact wp_mono (led (apart_memory.led_recvLogRsp true rsp)) fun _ _ h leads ↦ Or.inl (h leads)

/-- Only commands are appended as LOCKs. -/
theorem ownLock_appends {p : Peer} {o : Oracle} {c : Call} {e : Entry}
    (other : ∀ req, c ≠ .recv (.commandReq req)) (appends : p.appends o c = some e) :
    p.ownLock e = false := by
  unfold Peer.appends at appends
  split at appends
  · exact absurd rfl (other _)
  · split at appends
    · obtain rfl := Option.some.inj appends
      simp [Peer.ownLock, Peer.ownEntry]
    · split at appends
      · obtain rfl := Option.some.inj appends
        simp [Peer.ownLock, Peer.ownEntry]
      · cases appends
  · split at appends
    · obtain rfl := Option.some.inj appends
      simp [Peer.ownLock, Peer.ownEntry]
    · cases appends
  · cases appends

section
variable {cfg : Config} {C : Hist → World → Action → Prop} {h : Hist} {s t : World} {a : Action}
  {p : Uid}

/-- A leader's commit index stays in its log. -/
theorem World.inside_of_leads (run : Run cfg C h s) (meets : C h s a) (next : s.step cfg a = some t)
    (leads : (t.peers a.peer).role = .leader)
    (inside : (s.peers a.peer).commitIndex < (s.peers a.peer).log.length) :
    (t.peers a.peer).commitIndex < (t.peers a.peer).log.length := by
  rcases World.step_commits run meets next leads with ⟨same, hlog | ⟨e, -, hlog⟩⟩ |
    ⟨rsp, -, commits, hlog⟩ | ⟨-, e, -, hlog, commit⟩
  · rw [same, hlog]
    exact inside
  · rw [same, hlog, List.length_append]
    omega
  · obtain ⟨-, -, e, found, -⟩ := Peer.commits_eq_some.mp commits
    rw [hlog]
    exact (List.getElem?_eq_some_iff.mp found).1
  · rw [commit, hlog, List.length_append, List.length_singleton]
    omega

/-- A step that commits no own LOCK continues the leader's log. -/
theorem World.continues (run : Run cfg C h s) (meets : C h s a) (next : s.step cfg a = some t)
    (leads : (t.peers a.peer).role = .leader)
    (inside : (s.peers a.peer).commitIndex < (s.peers a.peer).log.length)
    (still : (t.peers a.peer).commitIndex = (s.peers a.peer).commitIndex ∨
      (∀ req, a.call ≠ .recv (.commandReq req)) ∧ ∀ rsp, a.call ≠ .recv (.appendRsp rsp)) :
    (s.peers a.peer).Continues (t.peers a.peer) := by
  obtain ⟨-, e, goes, hpeers, -⟩ := World.step_cases next
  have hself : t.peers a.peer = e.self := by rw [hpeers, Function.update_self]
  have locked := goes.locked
  have log : (s.peers a.peer).log <+: (t.peers a.peer).log := by
    rcases World.step_commits run meets next leads with ⟨-, hlog | ⟨e, -, hlog⟩⟩ |
      ⟨rsp, -, -, hlog⟩ | ⟨-, e, -, hlog, -⟩
    · rw [hlog]
    · rw [hlog]
      exact List.prefix_append _ _
    · rw [hlog]
    · rw [hlog]
      exact List.prefix_append _ _
  refine ⟨inside, hself ▸ locked.clusterEvent, hself ▸ locked.workflow,
    fun known ↦ hself ▸ locked.mapped known, log, ?_⟩
  have nothing (same : (t.peers a.peer).commitIndex = (s.peers a.peer).commitIndex) :
      ((t.peers a.peer).log.take ((t.peers a.peer).commitIndex + 1)).drop
        ((s.peers a.peer).commitIndex + 1) = [] := by
    rw [same]
    exact List.drop_eq_nil_of_le (List.length_take_le _ _)
  rcases still with same | ⟨command, confirmed⟩
  · rw [nothing same]
    exact fun _ h ↦ nomatch h
  · rcases World.step_commits run meets next leads with ⟨same, -⟩ | ⟨rsp, hcall, -⟩ |
      ⟨alone, e, appends, hlog, commit⟩
    · rw [nothing same]
      exact fun _ h ↦ nomatch h
    · exact absurd hcall (confirmed rsp)
    · rw [hlog, commit, List.take_of_length_le (by simp), ← (run.settled alone).2, List.drop_left]
      intro e' he'
      rw [List.mem_singleton.mp he']
      exact ownLock_appends command appends

/-- What a leader hears from another cluster leaves it its locks where the response spares them. -/
theorem World.remembers_of_response (run : Run cfg C h s) (next : s.step cfg a = some t)
    {rsp : CommandRsp} (received : a.call = .recv (.commandRsp rsp))
    (spares : (s.peers a.peer).SparesLocks a.oracle rsp) (remembers : (s.peers a.peer).Remembers)
    (pq : (s.peers a.peer).Continues (t.peers a.peer)) : (t.peers a.peer).Remembers := by
  have call {Q : EnclaveState → Prop}
      (hQ : wp (recvCommandRsp a.oracle true rsp) (fun _ e ↦ Q e) (s.enclave a.peer)) :
      ∃ e, Q e ∧ t.peers a.peer = e.self := by
    obtain ⟨-, e, he, hpeers, -⟩ := World.step_of_wp (a := a) next (by rw [received]; exact hQ)
    exact ⟨e, he, by rw [hpeers, Function.update_self]⟩
  have locked (incomplete : (s.peers a.peer).completesLocks rsp = false)
      (idle : ¬ (s.peers a.peer).abortsOn rsp) : (t.peers a.peer).lockedEvents =
      if (s.peers a.peer).countsLock rsp then
        (s.peers a.peer).lockedEvents.insert ((s.peers a.peer).eventOf rsp.source)
      else (s.peers a.peer).lockedEvents := by
    obtain ⟨e, he, hself⟩ := call (lockedEvents_recvCommandRsp (s := s.enclave a.peer)
      incomplete idle)
    rw [hself]
    exact he
  have unlocked (unhandled : ¬ (s.peers a.peer).Handles true rsp) :
      (t.peers a.peer).lockedEvents = (s.peers a.peer).lockedEvents := by
    have ignored : (s.peers a.peer).countsLock rsp = false := by
      rw [Bool.eq_false_iff, Ne, Peer.countsLock_iff]
      rintro ⟨target, leads, granted, -⟩
      exact unhandled ⟨rfl, target, leads, granted⟩
    have incomplete : (s.peers a.peer).completesLocks rsp = false := by
      unfold Peer.completesLocks
      rw [ignored, Bool.false_and]
    rw [locked incomplete fun aborts ↦ unhandled aborts.1, ignored, if_neg Bool.false_ne_true]
  rcases run.outstanding next received with ⟨handles, after⟩ | ⟨redirects, after⟩ |
    ⟨⟨unhandled, -⟩, after⟩
  · refine spares.remembers handles remembers pq ⟨after, locked, fun complete ↦ ?_, fun aborts ↦ ?_⟩
    · obtain ⟨e, ⟨node, -⟩, hself⟩ := call (recvCommandRsp_of_completesLocks
        (s := s.enclave a.peer) complete)
      have hlog : e.self.log = (s.peers a.peer).log ++ [_] := congrArg Node.log node
      rw [hself, hlog, List.drop_left]
      exact ⟨_, List.mem_cons_self, rfl⟩
    · obtain ⟨e, ⟨hlog, -⟩, hself⟩ := call (recvCommandRsp_of_starts handles aborts.2.1
        aborts.2.2).1
      rw [hself, hlog, List.drop_left]
      exact ⟨_, List.mem_cons_self, rfl⟩
  · have unhandled : ¬ (s.peers a.peer).Handles true rsp := fun h ↦ h.not_redirects redirects
    exact spares.remembers_of_redirects redirects remembers pq (unlocked unhandled) after
  · exact pq.remembers remembers (unlocked unhandled) after

/-- So does what it commits, where the requests that are filed cover it. -/
theorem World.remembers_of_files (run : Run cfg C h s) (meets : C h s a)
    (next : s.step cfg a = some t) (leads : (t.peers a.peer).role = .leader)
    (inside : (s.peers a.peer).commitIndex < (s.peers a.peer).log.length)
    (remembers : (s.peers a.peer).Remembers)
    (filed : (t.peers a.peer).memory = ((s.peers a.peer).lockedEvents,
      fileAll ((s.peers a.peer).lockRequests a.oracle
        ((s.peers a.peer).hold.newly (t.peers a.peer).hold)) (s.peers a.peer).missingResp))
    (asks : (t.peers a.peer).commitIndex ≠ (s.peers a.peer).commitIndex →
      (s.peers a.peer).RemembersAt a.oracle (t.peers a.peer).log (t.peers a.peer).commitIndex) :
    (t.peers a.peer).Remembers := by
  by_cases still : (t.peers a.peer).commitIndex = (s.peers a.peer).commitIndex
  · have none : (s.peers a.peer).hold.newly (t.peers a.peer).hold = [] := Hold.newly_of_eq still
    rw [none] at filed
    obtain ⟨locked, missing⟩ := Prod.mk.inj filed
    exact (World.continues run meets next leads inside (Or.inl still)).remembers remembers locked
      missing
  · obtain ⟨-, e, goes, hpeers, -⟩ := World.step_cases next
    have hself : t.peers a.peer = e.self := by rw [hpeers, Function.update_self]
    have locked := goes.locked
    exact (asks still).remembers (World.inside_of_leads run meets next leads inside)
      (hself ▸ locked.clusterEvent) (hself ▸ locked.workflow)
      (fun known ↦ hself ▸ locked.mapped known) filed

/-- A step leaves a leader its locks, in whose election it remembered them or which did before. -/
theorem KeepsLocks.remembers (keeps : KeepsLocks s a) (run : Run cfg C h s) (meets : C h s a)
    (next : s.step cfg a = some t) (leads : (t.peers a.peer).role = .leader)
    (before : (s.peers a.peer).role = .leader →
      (s.peers a.peer).commitIndex < (s.peers a.peer).log.length ∧ (s.peers a.peer).Remembers) :
    (t.peers a.peer).commitIndex < (t.peers a.peer).log.length ∧ (t.peers a.peer).Remembers := by
  obtain ⟨-, e, he, hpeers, -⟩ := World.step_of_wp next
    (memory_body a.oracle a.call fun alone ↦ (run.settled alone).2)
  have hself : t.peers a.peer = e.self := by rw [hpeers, Function.update_self]
  unfold KeepsLocks at keeps
  rcases he (hself ▸ leads) with ⟨led, effect⟩ | ⟨rsp, hcall, elects, takes, memory⟩
  · obtain ⟨inside, remembers⟩ := before led
    refine ⟨World.inside_of_leads run meets next leads inside, ?_⟩
    have continues := World.continues run meets next leads inside
    have same (memory : e.self.memory = (s.peers a.peer).memory)
        (command : ∀ req, a.call ≠ .recv (.commandReq req))
        (confirmed : ∀ rsp, a.call ≠ .recv (.appendRsp rsp)) : (t.peers a.peer).Remembers := by
      rw [← hself] at memory
      obtain ⟨locked, missing⟩ := Prod.mk.inj memory
      exact (continues (Or.inr ⟨command, confirmed⟩)).remembers remembers locked missing
    have commits := World.step_commits run meets next leads
    cases hcall : a.call with
    | recv msg =>
      rw [hcall] at keeps effect
      cases msg with
      | commandReq req =>
        unfold FilesNewly at effect
        rw [← hself] at effect
        refine World.remembers_of_files run meets next leads inside remembers effect fun ahead ↦ ?_
        rcases commits with ⟨still, -⟩ | ⟨rsp, other, -⟩ | ⟨alone, f, appends, hlog, commit⟩
        · exact absurd still ahead
        · exact nomatch hcall.symm.trans other
        · rw [hlog, commit]
          rw [hcall] at appends
          exact keeps alone f appends
      | appendRsp rsp =>
        unfold FilesNewly at effect
        rw [← hself] at effect
        refine World.remembers_of_files run meets next leads inside remembers effect fun ahead ↦ ?_
        rcases commits with ⟨still, -⟩ | ⟨rsp', received, commits, hlog⟩ | ⟨-, f, appends, -⟩
        · exact absurd still ahead
        · obtain rfl : rsp = rsp' := by simpa using hcall.symm.trans received
          rw [hlog]
          exact keeps _ commits
        · rw [hcall] at appends
          exact nomatch appends
      | commandRsp rsp =>
        exact World.remembers_of_response run next hcall keeps remembers
          (continues (Or.inr ⟨by simp [hcall], by simp [hcall]⟩))
      | _ => exact same effect (by simp [hcall]) (by simp [hcall])
    | _ =>
      rw [hcall] at effect
      exact same effect (by simp [hcall]) (by simp [hcall])
  · rw [hcall] at keeps
    have inside : (s.peers a.peer).commitIndex < (s.peers a.peer).log.length := takes.inside
    obtain ⟨found, -, hold⟩ := takes
    rw [← hself] at hold memory
    have still : (t.peers a.peer).commitIndex = (s.peers a.peer).commitIndex :=
      congrArg Hold.commitIndex hold
    obtain ⟨locked, missing⟩ := Prod.mk.inj memory
    refine ⟨World.inside_of_leads run meets next leads inside, ?_⟩
    exact (World.continues run meets next leads inside (Or.inl still)).remembers (keeps elects)
      locked missing

/-- As long as its steps keep its locks, a leader remembers them. -/
theorem Run.remembers (run : Run cfg C h s) (leads : (s.peers p).role = .leader)
    (keeps : LeadsKeeping p h s) :
    (s.peers p).commitIndex < (s.peers p).log.length ∧ (s.peers p).Remembers := by
  induction run with
  | initial =>
    have fresh := (fresh_configured cfg p).node
    have hlog : ((World.initial cfg).peers p).log = [getEmptyEntry] := congrArg Node.log fresh
    have hcommit : ((World.initial cfg).peers p).commitIndex = 0 := congrArg Node.commitIndex fresh
    rw [hlog, hcommit]
    refine ⟨Nat.one_pos, fun i hi lock found own ↦ ?_⟩
    rw [hcommit] at hi
    rw [hlog] at found
    obtain rfl : i = 0 := by omega
    obtain rfl := Option.some.inj found
    simp [Peer.ownLock, getEmptyEntry] at own
  | @step h s t a run meets next ih =>
    obtain ⟨before, last⟩ := keeps leads
    by_cases hne : p = a.peer
    · subst hne
      exact (last rfl).remembers run meets next leads fun led ↦ ih led before
    · obtain ⟨-, e, -, hpeers, -⟩ := World.step_cases next
      rw [hpeers, Function.update_of_ne hne] at leads ⊢
      exact ih leads before

end

end TrustedDcr.System
