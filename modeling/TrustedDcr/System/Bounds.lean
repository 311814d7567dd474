import TrustedDcr.Enclave.Bounds
import TrustedDcr.System.Acknowledgements

/-!
# No call reads outside the log

The positions a call reads come from earlier steps: an acknowledged or rejected index,
the lock found at an election, the commit index. Where responses of earlier terms and
the refusals of old requests stay unanswered, a repeated request does not cut committed
entries off, and aborts find a lock, every one of them is inside the log.
-/

namespace TrustedDcr.System
open TrustedDcr.Msg TrustedDcr.Dcr TrustedDcr.Enclave TrustedDcr.Theory

/-! ### What the positions rely on -/

/-- A leader answers no refusal of an old request, and a rejection of an earlier term only where it
does not point beyond the log. -/
def AnswersRejections (s : World) (a : Action) : Prop :=
  match a.call with
  | .recv (.appendRsp rsp) => (s.peers a.peer).takesRejection rsp = true →
      rsp.lastIndex ≠ 0 ∧
        (rsp.term = (s.peers a.peer).term ∨ rsp.prevIndex ≤ (s.peers a.peer).log.length)
  | _ => True

instance (s : World) (a : Action) : Decidable (AnswersRejections s a) := by
  unfold AnswersRejections
  induction a.call using Call.casesOn with
  | recv m => induction m using Message.casesOn <;> infer_instance
  | _ => infer_instance

/-- An accepted request leaves the entries up to the commit index in the log. -/
def KeepsCommitted (s : World) (a : Action) : Prop :=
  match a.call with
  | .recv (.appendReq req) => (s.peers a.peer).accepts req = true →
      (s.peers a.peer).commitIndex ≤ req.prevIndex + req.entries.length
  | _ => True

instance (s : World) (a : Action) : Decidable (KeepsCommitted s a) := by
  unfold KeepsCommitted
  induction a.call using Call.casesOn with
  | recv m => induction m using Message.casesOn <;> infer_instance
  | _ => infer_instance

/-- A leader aborts while it holds a lock only, and not alone in its cluster. -/
def AbortsHeld (s : World) (a : Action) : Prop :=
  match a.call with
  | .recv (.commandReq req) => (s.peers a.peer).appendsAbort req = true →
      (s.peers a.peer).clusterSize ≠ 1
  | .recv (.commandRsp rsp) => (s.peers a.peer).takesAbort rsp = true →
      (s.peers a.peer).lockedEntryIndex ≠ -1 ∧ (s.peers a.peer).clusterSize ≠ 1
  | .recv (.appendRsp rsp) => abortsHeld (s.peers a.peer).log (s.peers a.peer).lockedEntryIndex
      ((s.peers a.peer).committedBy rsp) = true
  | _ => True

instance (s : World) (a : Action) : Decidable (AbortsHeld s a) := by
  unfold AbortsHeld
  induction a.call using Call.casesOn with
  | recv m => induction m using Message.casesOn <;> infer_instance
  | _ => infer_instance

/-- Acknowledgements are taken fairly, and no other position leaves the log. -/
def StaysInLog (cfg : Config) (h : Hist) (s : World) (a : Action) : Prop :=
  TakesAcksFairly cfg h s a ∧ AnswersRejections s a ∧ KeepsCommitted s a ∧ AbortsHeld s a

instance (cfg : Config) (h : Hist) (s : World) (a : Action) : Decidable (StaysInLog cfg h s a) :=
  inferInstanceAs (Decidable (_ ∧ _))

/-! ### What a call keeps -/

section
variable {o : Oracle} {c : Call} {s : EnclaveState}

private theorem commit_body (commit : s.self.commitIndex < s.self.log.length)
    (keeps : ∀ req, c = .recv (.appendReq req) → s.self.accepts req = true →
      s.self.commitIndex ≤ req.prevIndex + req.entries.length) :
    wp (c.body o) (fun _ e ↦ e.self.commitIndex < e.self.log.length) s := by
  by_cases hc : ∃ req, c = .recv (.appendReq req)
  · obtain ⟨req, rfl⟩ := hc
    exact recvAppendReq_commit true req commit (keeps req rfl)
  · refine wp_mono (goes_body o c s) fun _ e he ↦ ?_
    apply commit_of_moves _ commit he.moves
    intro req received
    exact hc ⟨req, Call.eq_recv received⟩

/-- A log without ABORT entries stays so, unless another peer's log is taken over. -/
theorem unaborted_body (clean : ∀ e ∈ s.self.log, e.tag.type ≠ .abort)
    (requests : ∀ req, c = .recv (.commandReq req) → s.self.appendsAbort req = false)
    (responses : ∀ rsp, c = .recv (.commandRsp rsp) → s.self.takesAbort rsp = false) :
    wp (c.body o) (fun _ e ↦ (∀ f ∈ e.self.log, f.tag.type ≠ .abort) ∨
      ∃ req, c = .recv (.appendReq req) ∧ req.target = e.self.id) s := by
  by_cases hc : ∃ rsp, c = .recv (.commandRsp rsp) ∧ rsp.tag.type = .abort
  · obtain ⟨rsp, rfl, type⟩ := hc
    refine wp_mono (recvCommandRsp_of_abort true type (responses rsp rfl)) fun _ e he ↦ ?_
    rw [show e.self.log = s.self.log from congrArg Node.log he]
    exact Or.inl clean
  · refine wp_mono (goes_body o c s) fun _ e he ↦ ?_
    obtain hlog | ⟨f, ds, origin, -, hlog⟩ | ⟨req, received, target, -⟩ :=
      log_of_moves he.moves rfl
    · rw [show e.self.log = s.self.log from hlog]
      exact Or.inl clean
    · rw [show e.self.log = s.self.log ++ [f] from hlog]
      refine Or.inl fun g hg ↦ ?_
      rw [List.mem_append, List.mem_singleton] at hg
      obtain hg | rfl := hg
      · exact clean g hg
      · cases origin with
        | @request req received addressed leads fresh lock =>
          intro habort
          have appends : s.self.appendsAbort req = true := by
            unfold Peer.appendsAbort
            simp only [show req.tag.type = .abort from habort, addressed, leads, fresh]
            simp
          exact absurd appends (by simp [requests req (Call.eq_recv received)])
        | immediate | executed | checkpoint => simp
        | @aborted rsp received type => exact absurd ⟨rsp, Call.eq_recv received, type⟩ hc
    · exact Or.inr ⟨req, Call.eq_recv received, target⟩

end

section
variable {cfg : Config} {h : Hist} {s t : World} {a : Action}

/-- A peer that is alone is sent no letters. -/
theorem Wired.not_received_alone (wired : Wired cfg s) (allowed : a.Allowed cfg s)
    (alone : (s.peers a.peer).clusterSize = 1) {m : Message} (received : a.call = .recv m)
    {l : Letter} (letter : m.letter = some l) : l.target ≠ a.peer := by
  intro target
  obtain ⟨⟨x, hsource, htarget⟩, hne, -⟩ :=
    wired.posted m (allowed.received m (by rw [received]; rfl)) l letter
  rw [target] at htarget hne
  exact hne ((wired.placed a.peer).eq_of_alone alone htarget hsource)

/-- What a step keeps of every peer's log. -/
theorem commit_step (keeps : KeepsCommitted s a) (next : s.step cfg a = some t)
    (ih : ∀ q, (s.peers q).commitIndex < (s.peers q).log.length) (q : Uid) :
    (t.peers q).commitIndex < (t.peers q).log.length := by
  have call := commit_body (o := a.oracle) (c := a.call) (s := s.enclave a.peer) (ih a.peer) (by
    intro req hcall accepts
    unfold KeepsCommitted at keeps
    rw [hcall] at keeps
    exact keeps accepts)
  obtain ⟨-, e, he, hpeers, -⟩ := World.step_of_wp next call
  rw [hpeers]
  rcases eq_or_ne q a.peer with rfl | hne
  · rw [Function.update_self]
    exact he
  · rw [Function.update_of_ne hne]
    exact ih q

private theorem unaborted_step (wired : Wired cfg s) (wired' : Wired cfg t) (held : AbortsHeld s a)
    (next : s.step cfg a = some t)
    (ih : ∀ q, (s.peers q).clusterSize = 1 → ∀ e ∈ (s.peers q).log, e.tag.type ≠ .abort) (q : Uid)
    (alone : (t.peers q).clusterSize = 1) : ∀ e ∈ (t.peers q).log, e.tag.type ≠ .abort := by
  have size : (t.peers q).clusterSize = (s.peers q).clusterSize :=
    (wired'.placed q).2.2.trans (wired.placed q).2.2.symm
  rw [size] at alone
  rcases eq_or_ne q a.peer with rfl | hne
  · unfold AbortsHeld at held
    have call := unaborted_body (o := a.oracle) (c := a.call) (s := s.enclave a.peer)
      (ih a.peer alone)
      (by
        intro req hcall
        rw [hcall] at held
        exact Bool.eq_false_iff.mpr fun appends ↦ held appends alone)
      (by
        intro rsp hcall
        rw [hcall] at held
        exact Bool.eq_false_iff.mpr fun takes ↦ (held takes).2 alone)
    obtain ⟨allowed, e, he, hpeers, -⟩ := World.step_of_wp next call
    have hself : t.peers a.peer = e.self := by rw [hpeers, Function.update_self]
    obtain clean | ⟨req, hcall, target⟩ := he
    · rwa [hself]
    · refine absurd ?_ (wired.not_received_alone allowed alone hcall (l := _) rfl)
      rw [target, ← hself]
      exact (wired'.placed a.peer).1
  · obtain ⟨-, e, -, hpeers, -⟩ := World.step_cases next
    rw [hpeers, Function.update_of_ne hne]
    exact ih q alone

private theorem locked_step (next : s.step cfg a = some t) (ih : ∀ q, (s.peers q).LockInLog)
    (q : Uid) : (t.peers q).LockInLog := by
  obtain ⟨-, e, he, hpeers, -⟩ := World.step_of_wp next
    (tenure_body a.oracle a.call (s.enclave a.peer))
  rw [hpeers]
  rcases eq_or_ne q a.peer with rfl | hne
  · rw [Function.update_self]
    rcases he with he | ⟨rsp, -, -, he⟩ | ⟨rsp, -, -, -, he⟩
    · exact he.locked (ih a.peer)
    · exact he.locked (ih a.peer)
    · exact he
  · rw [Function.update_of_ne hne]
    exact ih q

/-- Over a run that stays in the log, so does every position a peer keeps. -/
theorem Run.inLog (run : Run cfg (StaysInLog cfg) h s) (q : Uid) : (s.peers q).InLog := by
  have below : Run cfg (fun _ s _ ↦ TermsBelow cfg s) h s :=
    run.mono fun _ _ _ meets ↦ meets.1.1.1
  have kept : (∀ q, (s.peers q).commitIndex < (s.peers q).log.length) ∧
      (∀ q, (s.peers q).clusterSize = 1 → ∀ e ∈ (s.peers q).log, e.tag.type ≠ .abort) ∧
      ∀ q, (s.peers q).LockInLog := by
    clear below
    induction run with
    | initial =>
      have hnode (q : Uid) := (fresh_configured cfg q).node
      refine ⟨fun q ↦ ?_, fun q _ ↦ ?_, fun q ↦ (configured_tenure cfg q).2⟩
      · rw [show ((World.initial cfg).peers q).commitIndex = 0 from
          congrArg Node.commitIndex (hnode q), show ((World.initial cfg).peers q).log =
          [getEmptyEntry] from congrArg Node.log (hnode q)]
        simp
      · rw [show ((World.initial cfg).peers q).log = [getEmptyEntry] from
          congrArg Node.log (hnode q)]
        simp [getEmptyEntry]
    | step run meets next ih =>
      obtain ⟨commit, alone, locked⟩ := ih
      have wired := (Run.wired (run.mono fun _ _ _ meets ↦ meets.1.1)).1
      have wired' := wired.step meets.1.1.1 next
      exact ⟨commit_step meets.2.2.1 next commit,
        unaborted_step wired wired' meets.2.2.2 next alone, locked_step next locked⟩
  refine ⟨kept.1 q, fun e he ↦ ?_, kept.2.1 q, kept.2.2 q⟩
  obtain ⟨i, hi⟩ := List.mem_iff_getElem?.mp he
  rw [(below.ordered.logs q).indexed i e hi]
  exact (List.getElem?_eq_some_iff.mp hi).1

/-! ### Rejections on their way -/

/-- The previous index of a rejection is that of a request: of an earlier term, or of one the peer
has sent as the leader of its term. -/
def Rejected (n : Node) (rsp : AppendRsp) : Prop :=
  0 < rsp.prevIndex ∧ (rsp.term < n.term ∨
    rsp.term = n.term ∧ n.role = .leader ∧ rsp.prevIndex < n.log.length)

private theorem Rejected.ensues {n n' : Node} {rsp : AppendRsp} (hr : Rejected n rsp)
    (he : Ensues n n') : Rejected n' rsp := by
  have hle := he.term_le
  obtain ⟨pos, hlt | ⟨term, leads, hlast⟩⟩ := hr
  · exact ⟨pos, Or.inl (by omega)⟩
  · refine ⟨pos, ?_⟩
    by_cases hterm : n'.term = n.term
    · obtain ⟨leads', new, hlog, -⟩ := he.leads leads hterm
      refine Or.inr ⟨term.trans hterm.symm, leads', ?_⟩
      rw [hlog, List.length_append]
      omega
    · exact Or.inl (by omega)

/-- A request whose previous entry is missing does not name the first entry. -/
theorem Copied.prevIndex_pos {req : AppendReq} {T : Nat} {log : List Entry} (copied : Copied req)
    (formed : WellFormed T log)
    (missing : ∀ prev, log[req.prevIndex]? = some prev → prev.term ≠ req.prevTerm) :
    0 < req.prevIndex := by
  obtain ⟨l, hl, ⟨prev, hprev, hpt⟩, -⟩ := copied
  by_contra hzero
  rw [show req.prevIndex = 0 by omega] at hprev missing
  obtain rfl := Option.some.inj (hl.root.symm.trans hprev)
  exact missing _ formed.root hpt

/-- Every rejection on its way names a position that its target's log has had. -/
theorem Run.rejected (run : Run cfg (fun _ s _ ↦ TermsBelow cfg s) h s) : ∀ rsp,
    .appendRsp rsp ∈ s.net → rsp.success = false → rsp.lastIndex ≠ 0 →
      Rejected (s.peers rsp.target).node rsp := by
  induction run with
  | initial => exact fun _ hm ↦ nomatch hm
  | @step h s t a run below next ih =>
    have wired := run.ensues.1
    have ensues := wired.ensues below next
    have allowed := (World.step_cases next).1
    have hp := Config.mem_cluster_clusterOf allowed.1
    obtain ⟨e, moves, hw, hpeers, hnet⟩ := wired.call below next
    intro rsp hm refused unzeroed
    rw [hnet, List.mem_append] at hm
    obtain hm | hm := hm
    · exact (ih rsp hm refused unzeroed).ensues (ensues rsp.target)
    · have keeps : OrderedCall e.view ∧ ∀ rsp, .appendRsp rsp ∈ e.view.sent →
          rsp.success = false → rsp.lastIndex ≠ 0 → Rejected (s.peers rsp.target).node rsp := by
        refine Wiring.keeps wired below allowed.received hp (Q := fun v ↦ OrderedCall v ∧
          ∀ rsp, .appendRsp rsp ∈ v.sent → rsp.success = false → rsp.lastIndex ≠ 0 →
            Rejected (s.peers rsp.target).node rsp) ?_ (Wiring.start wired a.peer)
          ⟨⟨run.ordered.logs a.peer, fun _ hm ↦ nomatch hm⟩, fun _ hm ↦ nomatch hm⟩ moves
        rintro v w - ⟨hv, hrejected⟩ move -
        refine ⟨run.ordered.move wired below allowed.received hp hv move, ?_⟩
        intro rsp hm refused unzeroed
        cases move with
        | say ms ds spoken =>
          rw [List.mem_append] at hm
          obtain hm | hm := hm
          · exact hrejected rsp hm refused unzeroed
          · obtain ⟨haddressed, -, req, received, hzero | ⟨htarget, hprev, hterm, missing⟩⟩ :=
              spoken _ hm
            · exact absurd hzero unzeroed
            · have hrsp : rsp.term = req.term := (haddressed _ rfl).2.1.trans hterm.symm
              have hreq := allowed.received _ received
              have hpos := (run.ordered.copied req hreq).prevIndex_pos hv.1 missing
              refine ⟨hprev ▸ hpos, ?_⟩
              rw [hrsp, htarget, hprev]
              obtain hlt | ⟨term, leads, l, hpre, ⟨prev, hat, -⟩, -⟩ := run.sourced req hreq
              · exact Or.inl hlt
              · have hlen := hpre.length_le
                have hlt := (List.getElem?_eq_some_iff.mp hat).1
                exact Or.inr ⟨term, leads, by omega⟩
        | grant | accept =>
          rw [List.mem_append, List.mem_singleton] at hm
          obtain hm | hm := hm
          · exact hrejected rsp hm refused unzeroed
          · simp_all
        | bump | stand | count | elect | append | commit | commitAlone =>
          exact hrejected rsp hm refused unzeroed
      exact (keeps.2 rsp hm refused unzeroed).ensues (ensues rsp.target)

/-! ### Every call returns -/

/-- A rejection that is answered names a position after the first and not beyond the log. -/
theorem Run.rejection_inside (run : Run cfg (fun _ s _ ↦ TermsBelow cfg s) h s)
    (answers : AnswersRejections s a) (allowed : a.Allowed cfg s) {rsp : AppendRsp}
    (hcall : a.call = .recv (.appendRsp rsp)) (takes : (s.peers a.peer).takesRejection rsp = true) :
    1 ≤ rsp.prevIndex ∧ rsp.prevIndex ≤ (s.peers a.peer).log.length := by
  unfold AnswersRejections at answers
  rw [hcall] at answers
  obtain ⟨unzeroed, hterm⟩ := answers takes
  unfold Peer.takesRejection at takes
  simp only [Bool.and_eq_true, uidsEqual_iff, beq_iff_eq, Bool.not_eq_true', decide_eq_true_eq]
    at takes
  obtain ⟨⟨⟨target, -⟩, -⟩, refused⟩ := takes
  rw [show (s.peers a.peer).id = a.peer from (run.ensues.1.placed a.peer).1] at target
  have hm : .appendRsp rsp ∈ s.net := allowed.received _ (by rw [hcall]; rfl)
  obtain ⟨pos, hlast⟩ := run.rejected rsp hm refused unzeroed
  rw [target] at hlast
  refine ⟨pos, ?_⟩
  obtain hterm | hle := hterm
  · obtain hlt | ⟨-, -, hlt⟩ := hlast
    · exact absurd (hterm ▸ hlt) (Nat.lt_irrefl _)
    · exact Nat.le_of_lt hlt
  · exact hle

end

/-- In every run that stays in the log, every allowed call that stays in it returns, having read
inside the log only; and the entries it resends start after the first and end with the log.
`src/enclave/enclave.cpp:732–767`. -/
theorem reads_in_log {cfg : Config} {h : Hist} {s : World} {a : Action}
    (run : Run cfg (StaysInLog cfg) h s) (meets : StaysInLog cfg h s a)
    (allowed : a.Allowed cfg s) : (∃ t, s.step cfg a = some t) ∧
      ∀ rsp, a.call = .recv (.appendRsp rsp) → (s.peers a.peer).takesRejection rsp = true →
        1 ≤ rsp.prevIndex ∧ rsp.prevIndex ≤ (s.peers a.peer).log.length := by
  obtain ⟨⟨fair, current, -⟩, answers, -, held⟩ := meets
  have inLog := run.inLog a.peer
  have acks : Run cfg (TakesAcksFairly cfg) h s := run.mono fun _ _ _ meets ↦ meets.1
  have below : Run cfg (fun _ s _ ↦ TermsBelow cfg s) h s :=
    run.mono fun _ _ _ meets ↦ meets.1.1.1
  have rejected (rsp : AppendRsp) (hcall : a.call = .recv (.appendRsp rsp))
      (takes : (s.peers a.peer).takesRejection rsp = true) :=
    below.rejection_inside answers allowed hcall takes
  refine ⟨?_, rejected⟩
  have returns : Returns (a.call.body a.oracle) (s.enclave a.peer) := by
    obtain ⟨p, c, o⟩ := a
    unfold TakesCurrentAcks at current
    unfold AbortsHeld at held
    cases c with
    | setTime ticks => exact returns_setTime ticks inLog
    | execute event => exact total_execute event _
    | getHistory => exact total_getHistory _
    | recv msg =>
      cases msg with
      | commandReq req => exact returns_recvCommandReq true req inLog held
      | commandRsp rsp => exact returns_recvCommandRsp true rsp inLog held
      | appendReq req => exact returns_recvAppendReq true req inLog
      | appendRsp rsp =>
        have fair : Run cfg (ElectsFairly cfg) h s := acks.mono fun _ _ _ meets ↦ meets.1
        apply returns_recvAppendRsp true rsp inLog _ _ held (rejected rsp rfl)
        · exact fun leads r i hi ↦ (fair.acknowledged (acks.indicesAcked p leads r i hi)).1
        · exact fun takes ↦ (fair.acknowledged (current takes)).1
      | pollReq req => exact returns_recvPollReq true req inLog
      | pollRsp rsp => exact returns_recvPollRsp true rsp inLog
      | electionReq req => exact returns_recvElectionReq true req inLog
      | electionRsp rsp => exact returns_recvElectionRsp true rsp inLog
      | logReq req => exact returns_recvLogReq true req inLog
      | logRsp rsp => exact total_recvLogRsp true rsp _
  obtain ⟨_, e, he⟩ := returns
  exact ⟨_, World.step_eq_some allowed he⟩

/-- The second of two peers rejects the first one's last entry, and the first one resends all that
follows the entry before. -/
theorem duo_reads_in_log : ∃ h s, ∃ rsp : AppendRsp, Run duo (StaysInLog duo) h s ∧
    (s.peers ⟨0, 11⟩).takesRejection rsp = true ∧
    (∃ t, s.step duo ⟨⟨0, 11⟩, .recv (.appendRsp rsp), silent⟩ = some t) ∧
    1 ≤ rsp.prevIndex ∧ rsp.prevIndex ≤ (s.peers ⟨0, 11⟩).log.length := by
  obtain ⟨h, s, run, takes, meets, allowed⟩ := exists_run_of_replay duo (StaysInLog duo)
    [.tick ⟨0, 11⟩ 1 emptyUid, .tick ⟨0, 12⟩ 1 emptyUid, .tick ⟨0, 11⟩ 10000 emptyUid,
      .deliver ⟨0, 12⟩ 0, .deliver ⟨0, 11⟩ 1, .deliver ⟨0, 12⟩ 2, .deliver ⟨0, 11⟩ 3,
      .start ⟨0, 11⟩ ⟨0, 1⟩ ⟨0, 101⟩, .deliver ⟨0, 11⟩ 5, .start ⟨0, 11⟩ ⟨0, 1⟩ ⟨0, 102⟩,
      .deliver ⟨0, 11⟩ 7, .deliver ⟨0, 12⟩ 8]
    (fun h s ↦
      (s.peers ⟨0, 11⟩).takesRejection ⟨⟨0, 11⟩, ⟨0, 12⟩, 1, 1, 1, false, 2 ^ 32 - 1⟩ = true ∧
      StaysInLog duo h s ⟨⟨0, 11⟩,
        .recv (.appendRsp ⟨⟨0, 11⟩, ⟨0, 12⟩, 1, 1, 1, false, 2 ^ 32 - 1⟩), silent⟩ ∧
      (⟨⟨0, 11⟩, .recv (.appendRsp ⟨⟨0, 11⟩, ⟨0, 12⟩, 1, 1, 1, false, 2 ^ 32 - 1⟩), silent⟩ :
        Action).Allowed duo s)
    (by decide +kernel)
  obtain ⟨returns, inside⟩ := reads_in_log run meets allowed
  exact ⟨h, s, _, run, takes, returns, inside _ rfl takes⟩

/-- A leader elected twice is sent the refusal of a request of its first term: it reads the entry
before the first. -/
theorem not_reads_in_log : ¬ ∀ (cfg : Config) (h : Hist) (s : World) (a : Action),
    Run cfg (TakesAcksFairly cfg) h s → TakesAcksFairly cfg h s a → a.Allowed cfg s →
      ∃ t, s.step cfg a = some t := by
  intro claim
  obtain ⟨h, s, run, m, hm, meets, allowed, faults⟩ := exists_run_of_replay duo
    (TakesAcksFairly duo)
    [.tick ⟨0, 11⟩ 1 emptyUid, .tick ⟨0, 12⟩ 1 emptyUid, .tick ⟨0, 12⟩ 10000 emptyUid,
      .deliver ⟨0, 11⟩ 0, .tick ⟨0, 12⟩ 0 emptyUid, .tick ⟨0, 12⟩ 13000 emptyUid,
      .tick ⟨0, 11⟩ 10000 emptyUid, .deliver ⟨0, 12⟩ 2, .deliver ⟨0, 11⟩ 3, .deliver ⟨0, 12⟩ 4,
      .deliver ⟨0, 11⟩ 5, .deliver ⟨0, 12⟩ 1, .deliver ⟨0, 11⟩ 7, .deliver ⟨0, 11⟩ 3,
      .deliver ⟨0, 12⟩ 9, .deliver ⟨0, 11⟩ 10, .deliver ⟨0, 12⟩ 6]
    (fun h s ↦ ∃ m ∈ s.net[12]?, TakesAcksFairly duo h s ⟨⟨0, 11⟩, .recv m, silent⟩ ∧
      (⟨⟨0, 11⟩, .recv m, silent⟩ : Action).Allowed duo s ∧
      (s.step duo ⟨⟨0, 11⟩, .recv m, silent⟩).isNone = true)
    (by decide +kernel)
  obtain ⟨t, ht⟩ := claim duo h s _ run meets allowed
  rw [ht] at faults
  exact nomatch faults

end TrustedDcr.System
