import TrustedDcr.Enclave.Tenure
import TrustedDcr.System.Matching

/-!
# Acknowledged indices

A leader enters the index of every response that confirms entries, of whatever term,
and enters it again after later leaderships of its own. Where it takes responses to
its own requests of the term alone, and starts without indices, an index stands for a
follower that had the leader's log up to there.
-/

namespace TrustedDcr.Enclave
open TrustedDcr.Msg TrustedDcr.Dcr TrustedDcr.Theory

variable {rcv : Option Message} {o : Oracle} {p : Peer}

/-! ### What a confirmation says -/

/-- Only requests for entries are confirmed. -/
theorem confirms_of_moves {v w : View} (moves : Relation.ReflTransGen (Move rcv o p) v w)
    {rsp : AppendRsp} (sent : .appendRsp rsp ∈ w.sent) (success : rsp.success = true) :
    .appendRsp rsp ∈ v.sent ∨ ∃ req, rcv = some (.appendReq req) := by
  induction moves with
  | refl => exact Or.inl sent
  | tail _ move ih =>
    cases move with
    | say ms ds spoken =>
      rcases List.mem_append.mp sent with sent | sent
      · exact ih sent
      · exact absurd ((spoken _ sent).2.1 : rsp.success = false) (by simp [success])
    | grant =>
      rcases List.mem_append.mp sent with sent | sent
      · exact ih sent
      · exact absurd (List.mem_singleton.mp sent) (by simp)
    | accept received => exact Or.inr ⟨_, received⟩
    | bump | stand | count | elect | append | commit | commitAlone => exact ih sent

/-- The verification sends nothing and keeps the identity. -/
theorem verifyMacAndOwnTerm_sent (valid : Bool) (target source : Uid) (term : Nat)
    (s : EnclaveState) : wp (verifyMacAndOwnTerm valid target source term)
      (fun _ t ↦ t.sent = s.sent ∧ t.self.id = s.self.id) s := by
  unfold verifyMacAndOwnTerm
  rw [wp_ite]
  refine ⟨fun _ ↦ wp_pure.mpr ⟨rfl, rfl⟩, fun _ ↦ ?_⟩
  rw [wp_bind, wp_getSelf, wp_ite]
  refine ⟨fun _ ↦ wp_pure.mpr ⟨rfl, rfl⟩, fun _ ↦ ?_⟩
  rw [wp_ite]
  refine ⟨fun _ ↦ ?_, fun _ ↦ wp_pure.mpr ⟨rfl, rfl⟩⟩
  rw [wp_bind, wp_modifySelf, wp_pure]
  exact ⟨rfl, rfl⟩

/-- The response confirms the entries the peer has taken over from the request by the end of the
call. -/
structure Confirms (req : AppendReq) (rsp : AppendRsp) (n n' : Node) : Prop where
  addressed : req.target = n.id
  source : rsp.source = n.id
  target : rsp.target = req.source
  term : rsp.term = req.term
  current : n'.term = req.term
  follows : ∃ prev, n.log[req.prevIndex]? = some prev ∧ prev.term = req.prevTerm
  log : n'.log = n.log.take (req.prevIndex + 1) ++ req.entries
  lastIndex : rsp.lastIndex = n'.log.length - 1

/-- `recv_append_req` confirms what it has taken over. -/
theorem recvAppendReq_confirms (valid : Bool) (req : AppendReq) {s : EnclaveState}
    (nothing : s.sent = []) : wp (recvAppendReq o valid req) (fun _ t ↦ ∀ rsp,
      .appendRsp rsp ∈ t.sent → rsp.success = true → Confirms req rsp s.self.node t.self.node) s := by
  have unsent {t : EnclaveState} (ht : t.sent = []) (rsp : AppendRsp)
      (sent : .appendRsp rsp ∈ t.sent) :
      rsp.success = true → Confirms req rsp s.self.node t.self.node := by
    rw [ht] at sent
    exact nomatch sent
  have refused {t : EnclaveState} {rsp' : AppendRsp} (ht : t.sent = []) (hf : rsp'.success = false)
      (rsp : AppendRsp) (sent : .appendRsp rsp ∈ t.sent ++ [.appendRsp rsp'])
      (success : rsp.success = true) : Confirms req rsp s.self.node t.self.node := by
    rw [ht] at sent
    obtain rfl := Message.appendRsp.inj (List.mem_singleton.mp sent)
    exact nomatch hf.symm.trans success
  unfold recvAppendReq
  rw [wp_bind]
  refine wp_mono (wp_and (verifyMacAndOwnTerm_sent valid req.target req.source req.term s)
    (verifyMacAndOwnTerm_spec (o := o) (p := s.self) (m := .appendReq req)
      (l := ⟨req.source, req.target, req.term⟩) rfl rfl valid s)) ?_
  rintro verified t ⟨⟨hsent, hid⟩, -, hv⟩
  rw [nothing] at hsent
  rw [wp_ite]
  refine ⟨fun hver ↦ ?_, fun _ ↦ wp_pure.mpr (unsent hsent)⟩
  obtain ⟨ha, hle, hs⟩ := hv hver
  have hlog : t.self.log = s.self.log := by
    rcases hs with rfl | ⟨-, hl, -⟩
    · rfl
    · exact hl
  rw [wp_bind, wp_getSelf, wp_bind]
  refine wp_mono (verifyMsgTerm_spec _ _ t) fun verified u hu ↦ ?_
  rcases hu with ⟨rfl, rfl, hterm⟩ | ⟨rfl, rfl⟩
  · rename' u => t
    rw [if_pos rfl, wp_ite]
    refine ⟨fun hfollows ↦ ?_, fun _ ↦ wp_pure.mpr (unsent hsent)⟩
    refine wp_when (fun u ↦ u.self.node = t.self.node ∧ u.sent = []) (fun _ ↦ ?_)
      (fun _ ↦ ⟨rfl, hsent⟩) fun u ⟨hu, hsent⟩ ↦ ?_
    · have still : wp (updateTimeout o) (fun _ u ↦ u.sent = []) t := wp_modifySelf.mpr hsent
      exact wp_mono (wp_and (aside_updateTimeout o t) still) fun _ _ h ↦ ⟨h.1.node, h.2⟩
    · rw [wp_ite]
      constructor
      · intro _
        rw [wp_macAndSendMsg]
        exact refused hsent rfl
      · intro hexists
        obtain ⟨prev, hprev, hpt⟩ := exists_of_termAndIndexExistInLog (by simpa using hexists)
        rw [hlog] at hprev
        have hulog : u.self.log = s.self.log := (congrArg Node.log hu).trans hlog
        have huid : u.self.id = s.self.id := (congrArg Node.id hu).trans hid
        have huterm : u.self.term = req.term :=
          (congrArg Node.term hu).trans (Nat.le_antisymm hterm hle)
        refine wp_mono (acceptEntries_spec (q := s.self) (ha.trans (hid.trans huid.symm)) huterm.symm
          ((congrArg Node.role hu).trans hfollows) ?_ hulog (hulog ▸ hprev) hpt) ?_
        · rcases hs with rfl | ⟨-, -, -, hlt⟩
          · exact Or.inr hfollows
          · exact Or.inl hlt
        · rintro _ v ⟨-, hnode, hsent'⟩ rsp sent success
          rw [hsent', hsent] at sent
          obtain rfl := Message.appendRsp.inj (List.mem_singleton.mp sent)
          have hlog' : v.self.log = u.self.log.take (req.prevIndex + 1) ++ req.entries :=
            congrArg Node.log hnode
          exact ⟨ha.trans hid, huid, rfl, huterm, (congrArg Node.term hnode).trans huterm,
            ⟨prev, hprev, hpt⟩, hlog'.trans (by rw [hulog]; rfl), rfl⟩
  · rw [if_neg Bool.false_ne_true]
    exact wp_pure.mpr (refused hsent rfl)

end TrustedDcr.Enclave

namespace TrustedDcr.System
open TrustedDcr.Msg TrustedDcr.Dcr TrustedDcr.Enclave TrustedDcr.Theory

/-! ### Requests and their confirmations -/

/-- The request is of an earlier term than the peer's, or carries a log the peer leads its term
with. -/
def Sourced (n : Node) (req : AppendReq) : Prop :=
  req.term < n.term ∨
    req.term = n.term ∧ n.role = .leader ∧ ∃ l, l <+: n.log ∧ Carries req l

private theorem Sourced.ensues {n n' : Node} {req : AppendReq} (h : Sourced n req)
    (he : Ensues n n') : Sourced n' req := by
  have hle := he.term_le
  rcases h with hlt | ⟨term, leads, l, hpre, carries⟩
  · exact Or.inl (Nat.lt_of_lt_of_le hlt hle)
  · rcases Nat.lt_or_eq_of_le hle with hlt | hterm
    · exact Or.inl (term ▸ hlt)
    · obtain ⟨leads', new, hlog, -⟩ := he.leads leads hterm.symm
      refine Or.inr ⟨term.trans hterm, leads', l, hpre.trans ⟨new, hlog.symm⟩, carries⟩

/-- In a step of the history `p` has confirmed a request of `q` in its term up to an index, and has
then agreed with `q` up to there. -/
def Acknowledged (cfg : Config) (h : Hist) (q p : Uid) (term index : Nat) : Prop :=
  ∃ s a t req rsp, (s, a) ∈ h ∧ s.step cfg a = some t ∧ a.peer = p ∧
    a.call = .recv (.appendReq req) ∧ req.source = q ∧ req.term = term ∧ (t.peers p).term = term ∧
    .appendRsp rsp ∈ t.net.drop s.net.length ∧ rsp.source = p ∧ rsp.target = q ∧
    rsp.term = term ∧ rsp.success = true ∧ rsp.lastIndex = index ∧
    (t.peers p).log.take (index + 1) = (t.peers q).log.take (index + 1)

private theorem Acknowledged.later {cfg : Config} {h : Hist} {q p : Uid} {term index : Nat}
    (hk : Acknowledged cfg h q p term index) (step : World × Action) :
    Acknowledged cfg (step :: h) q p term index := by
  obtain ⟨s, a, t, req, rsp, hstep, hrest⟩ := hk
  exact ⟨s, a, t, req, rsp, List.mem_cons_of_mem _ hstep, hrest⟩

/-- The response is of an earlier term than its target's, or stands for entries its target leads
with. -/
def Backed (cfg : Config) (h : Hist) (n : Node) (rsp : AppendRsp) : Prop :=
  rsp.term < n.term ∨ rsp.term = n.term ∧ n.role = .leader ∧ rsp.lastIndex < n.log.length ∧
    Acknowledged cfg h rsp.target rsp.source rsp.term rsp.lastIndex

private theorem Backed.ensues {cfg : Config} {h : Hist} {n n' : Node} {rsp : AppendRsp}
    (hb : Backed cfg h n rsp) (he : Ensues n n') (step : World × Action) :
    Backed cfg (step :: h) n' rsp := by
  have hle := he.term_le
  rcases hb with hlt | ⟨term, leads, hlast, hk⟩
  · exact Or.inl (Nat.lt_of_lt_of_le hlt hle)
  · rcases Nat.lt_or_eq_of_le hle with hlt | hterm
    · exact Or.inl (term ▸ hlt)
    · obtain ⟨leads', new, hlog, -⟩ := he.leads leads hterm.symm
      refine Or.inr ⟨term.trans hterm, leads', ?_, hk.later step⟩
      rw [hlog, List.length_append]
      exact Nat.lt_add_right _ hlast

section
variable {cfg : Config} {h : Hist} {s t : World} {a : Action}

/-- Every request for entries is backed by the log of its sender. -/
theorem Run.sourced (run : Run cfg (fun _ s _ ↦ TermsBelow cfg s) h s) :
    ∀ req, .appendReq req ∈ s.net → Sourced (s.peers req.source).node req := by
  induction run with
  | initial => exact fun _ hm ↦ nomatch hm
  | @step h s t a run below next ih =>
    have wired := run.ensues.1
    have allowed := (World.step_cases next).1
    have hp := Config.mem_cluster_clusterOf allowed.1
    obtain ⟨e, moves, hw, hpeers, hnet⟩ := wired.call below next
    intro req hm
    rw [hnet] at hm
    rcases List.mem_append.mp hm with hm | hm
    · exact (ih req hm).ensues (wired.ensues below next req.source)
    · have keeps : OrderedCall e.view ∧
          ∀ req, .appendReq req ∈ e.view.sent → Sourced e.view.node req := by
        refine Wiring.keeps wired below allowed.received hp (Q := fun v ↦ OrderedCall v ∧
          ∀ req, .appendReq req ∈ v.sent → Sourced v.node req) ?_ (Wiring.start wired a.peer)
          ⟨⟨run.ordered.logs a.peer, fun _ hm ↦ nomatch hm⟩, fun _ hm ↦ nomatch hm⟩ moves
        rintro v w - ⟨hv, hsourced⟩ move -
        have ensues := Ensues.of_move wired below allowed.received hp move
        refine ⟨run.ordered.move wired below allowed.received hp hv move, fun req hm ↦ ?_⟩
        have old (hm : .appendReq req ∈ v.sent) : Sourced w.node req :=
          (hsourced req hm).ensues ensues
        cases move with
        | say ms ds spoken =>
          rcases List.mem_append.mp hm with hm | hm
          · exact old hm
          · obtain ⟨haddressed, hslice⟩ := spoken _ hm
            exact Or.inr ⟨(haddressed _ rfl).2.1, hslice.1, _, List.prefix_rfl,
              .of_slice hslice hv.1.indexed⟩
        | grant | accept =>
          rcases List.mem_append.mp hm with hm | hm
          · exact old hm
          · exact absurd (List.mem_singleton.mp hm) (by simp)
        | bump | stand | count | elect | append | commit | commitAlone => exact old hm
      have hsource : req.source = a.peer := (hw.posted _ hm _ rfl).1
      rw [hsource, hpeers, Function.update_self]
      exact keeps.2 req hm

/-- A call that confirms entries has received the request for them. -/
theorem confirms_body (o : Oracle) (c : Call) {s : EnclaveState} (nothing : s.sent = []) :
    wp (c.body o) (fun _ e ↦ ∀ rsp, .appendRsp rsp ∈ e.sent → rsp.success = true →
      ∃ req, c = .recv (.appendReq req) ∧ Confirms req rsp s.self.node e.self.node) s := by
  by_cases hc : ∃ req, c = .recv (.appendReq req)
  · obtain ⟨req, rfl⟩ := hc
    refine wp_mono (recvAppendReq_confirms true req nothing) fun _ e he rsp sent success ↦ ?_
    exact ⟨req, rfl, he rsp sent success⟩
  · refine wp_mono (goes_body o c s) fun _ e he rsp sent success ↦ ?_
    rcases confirms_of_moves he.moves sent success with sent | ⟨req, received⟩
    · rw [show s.view.sent = [] from nothing] at sent
      exact nomatch sent
    · exact absurd ⟨req, Call.eq_recv received⟩ hc

/-- The leaders of a cluster are unique over a run with fair elections. -/
theorem Run.leadersUnique (run : Run cfg (ElectsFairly cfg) h s) (x : Uid) :
    LeadersUnique cfg x h s := by
  obtain ⟨elected, led⟩ := run.elected x
  intro s₁ h₁ s₂ h₂ p hp q hq leads₁ leads₂ term
  have he := led s₁ h₁ p hp leads₁
  rw [term, led s₂ h₂ q hq leads₂] at he
  exact (Option.some.inj he).symm

/-- With unique leaders, what is taken over from a leader's request is the log it was sent with. -/
theorem Run.log_of_confirms (run : Run cfg (ElectsFairly cfg) h s) {x p q : Uid}
    (hp : p ∈ cfg.cluster x) (hq : q ∈ cfg.cluster x) {req : AppendReq} {rsp : AppendRsp} {n : Node}
    (confirms : Confirms req rsp (s.peers p).node n) {l : List Entry} (hpre : l <+: (s.peers q).log)
    (carries : Carries req l) : n.log = l := by
  have run' : Run cfg (fun _ s _ ↦ TermsBelow cfg s) h s := run.mono fun _ _ _ meets ↦ meets.1
  have unique := run.leadersUnique x
  have matched := run'.matched unique
  obtain ⟨⟨f, hf, hft⟩, hentries⟩ := carries
  obtain ⟨prev, hprev, hpt⟩ := confirms.follows
  have hlt := (List.getElem?_eq_some_iff.mp hf).1
  have hf' : (s.peers q).log[req.prevIndex]? = some f := getElem?_of_isPrefix hpre hf
  have hmatch := (matched.logs p hp).matching run' unique (matched.logs q hq)
    (run'.ordered.logs p).root (run'.ordered.logs q).root hprev hf' (hpt.trans hft.symm)
  rw [confirms.log]
  change (s.peers p).log.take (req.prevIndex + 1) ++ req.entries = l
  rw [hmatch, take_eq_of_isPrefix hpre hlt, hentries, List.take_append_drop]

/-- Every confirmation on its way is backed by its target's log. -/
theorem Run.backed (run : Run cfg (ElectsFairly cfg) h s) : ∀ rsp, .appendRsp rsp ∈ s.net →
    rsp.success = true → Backed cfg h (s.peers rsp.target).node rsp := by
  induction run with
  | initial => exact fun _ hm ↦ nomatch hm
  | @step h s t a run meets next ih =>
    have run' : Run cfg (fun _ s _ ↦ TermsBelow cfg s) h s := run.mono fun _ _ _ hm ↦ hm.1
    have wired := run'.ensues.1
    have allowed := (World.step_cases next).1
    obtain ⟨-, e, he, hpeers, hnet, -⟩ := World.step_of_wp (a := a) next
      (confirms_body a.oracle a.call (s := s.enclave a.peer) rfl)
    intro rsp hm success
    rw [hnet] at hm
    rcases List.mem_append.mp hm with hm | hm
    · exact (ih rsp hm success).ensues (wired.ensues meets.1 next rsp.target) (s, a)
    · obtain ⟨req, hcall, confirms⟩ := he rsp hm success
      have hreq : .appendReq req ∈ s.net := allowed.received _ (by rw [hcall]; rfl)
      have hid : (s.peers a.peer).id = a.peer := (wired.placed a.peer).1
      have hsource : rsp.source = a.peer := confirms.source.trans hid
      have htarget : req.target = a.peer := confirms.addressed.trans hid
      obtain ⟨⟨x, hq, hp⟩, hne, -⟩ := wired.posted _ hreq _ rfl
      dsimp only at hq hp hne
      rw [htarget] at hp hne
      have hother : t.peers req.source = s.peers req.source := by
        rw [hpeers, Function.update_of_ne hne]
      have hself : t.peers a.peer = e.self := by rw [hpeers, Function.update_self]
      rw [confirms.target, hother]
      rcases run'.sourced req hreq with hlt | ⟨term, leads, l, hpre, carries⟩
      · exact Or.inl (confirms.term ▸ hlt)
      · have hlog : e.self.log = l := run.log_of_confirms hp hq confirms hpre carries
        have hlast : rsp.lastIndex = l.length - 1 := by
          rw [confirms.lastIndex, ← hlog]
          rfl
        obtain ⟨⟨f, hf, -⟩, -⟩ := carries
        have hlt := (List.getElem?_eq_some_iff.mp hf).1
        refine Or.inr ⟨confirms.term.trans term, leads, ?_, s, a, t, req, rsp, List.mem_cons_self,
          next, hsource.symm, hcall, confirms.target.symm, confirms.term.symm, ?_, ?_, rfl, rfl, rfl,
          success, rfl, ?_⟩
        · have hle : l.length ≤ (s.peers req.source).log.length := hpre.length_le
          change rsp.lastIndex < (s.peers req.source).log.length
          omega
        · rw [hsource, hself, confirms.term]
          exact confirms.current
        · rw [hnet, List.drop_left]
          exact hm
        · rw [hsource, hself, confirms.target, hother, hlog, hlast, Nat.sub_add_cancel (by omega),
            List.take_length]
          exact List.prefix_iff_eq_take.mp hpre

end

/-! ### Which acknowledgements are taken -/

/-- The message confirms entries of `q` for `p` in the term, up to the index. -/
def acknowledges (q p : Uid) (term index : Nat) : Message → Bool
  | .appendRsp rsp => rsp.target == q && rsp.source == p && rsp.success && rsp.term == term &&
      rsp.lastIndex == index
  | _ => false

/-- A leader takes no acknowledgement that it could not take from its own term as well. -/
def TakesCurrentAcks (s : World) (a : Action) : Prop :=
  match a.call with
  | .recv (.appendRsp rsp) => (s.peers a.peer).takesAck rsp = true →
      ∃ m ∈ s.net,
        acknowledges a.peer rsp.source (s.peers a.peer).term rsp.lastIndex m = true
  | _ => True

instance (s : World) (a : Action) : Decidable (TakesCurrentAcks s a) := by
  unfold TakesCurrentAcks
  induction a.call using Call.casesOn with
  | recv m => induction m using Message.casesOn <;> infer_instance
  | _ => infer_instance

/-- A candidate starts to lead without indices. -/
def LeadsAfresh (s : World) (a : Action) : Prop :=
  match a.call with
  | .recv (.electionRsp rsp) => (s.peers a.peer).electedBy rsp = true →
      (s.peers a.peer).indices.toList = []
  | _ => True

instance (s : World) (a : Action) : Decidable (LeadsAfresh s a) := by
  unfold LeadsAfresh
  induction a.call using Call.casesOn with
  | recv m => induction m using Message.casesOn <;> infer_instance
  | _ => infer_instance

/-- Fair elections, and no acknowledgement of another term. -/
def TakesAcksFairly (cfg : Config) (h : Hist) (s : World) (a : Action) : Prop :=
  ElectsFairly cfg h s a ∧ TakesCurrentAcks s a ∧ LeadsAfresh s a

instance (cfg : Config) (h : Hist) (s : World) (a : Action) :
    Decidable (TakesAcksFairly cfg h s a) := inferInstanceAs (Decidable (_ ∧ _))

/-- Each of the leader's indices was acknowledged in its term. -/
def IndicesAcked (net : List Message) (q : Uid) (p : Peer) : Prop :=
  p.role = .leader → ∀ r i, p.indices[r]? = some i →
    ∃ m ∈ net, acknowledges q r p.term i m = true

section
variable {cfg : Config} {h : Hist} {s t : World} {a : Action}

/-- What a call does to the indices, the lead and the locked entry. -/
theorem tenure_body (o : Oracle) (c : Call) (s : EnclaveState) :
    wp (c.body o) (fun _ e ↦ Tenure s e ∨
      (∃ rsp, c = .recv (.appendRsp rsp) ∧ s.self.takesAck rsp = true ∧
        Tenure { s with self := { s.self with
          indices := s.self.indices.insert rsp.source rsp.lastIndex } } e) ∨
      ∃ rsp, c = .recv (.electionRsp rsp) ∧ s.self.electedBy rsp = true ∧
        e.self.indices = s.self.indices ∧ e.self.LockInLog) s := by
  have still {x : Ecall Unit} {Q : EnclaveState → Prop} (hx : Along Tenure x) :
      wp x (fun _ e ↦ Tenure s e ∨ Q e) s := wp_mono (hx s) fun _ _ h ↦ Or.inl h
  cases c with
  | setTime ticks => exact still (tenure_setTime ticks)
  | execute event => exact still (walk_tenure.execute event)
  | getHistory => exact still walk_tenure.getHistory
  | recv msg =>
    cases msg with
    | commandReq req => exact still (walk_tenure.recvCommandReq true req)
    | commandRsp rsp => exact still (walk_tenure.recvCommandRsp true rsp)
    | appendReq req => exact still (tenure_recvAppendReq true req)
    | appendRsp rsp =>
      refine wp_mono (recvAppendRsp_spec true rsp s) fun _ e he ↦ he.imp_right fun h ↦ ?_
      exact Or.inl ⟨rsp, rfl, h⟩
    | pollReq req => exact still (tenure_recvPollReq true req)
    | pollRsp rsp => exact still (tenure_recvPollRsp true rsp)
    | electionReq req => exact still (walk_tenure.recvElectionReq true req)
    | electionRsp rsp =>
      refine wp_mono (recvElectionRsp_spec true rsp s) fun _ e he ↦ he.imp_right fun h ↦ ?_
      exact Or.inr ⟨rsp, rfl, h⟩
    | logReq req => exact still (walk_tenure.recvLogReq (fun _ ↦ tenure_macAndSendMsg _) true req)
    | logRsp rsp =>
      refine still (walk_tenure.recvLogRsp (fun part ↦ ?_) true rsp)
      exact Along.modify fun s ↦ { Tenure.refl s with }

/-- A configured peer has no indices and no locked entry outside its log. -/
theorem configured_tenure (cfg : Config) (id : Uid) :
    (configured cfg id).indices = ∅ ∧ (configured cfg id).LockInLog := by
  have call : wp (configureEnclave silent id cfg.workflow cfg.peerMap)
      (fun _ t ↦ t.self.indices = ∅ ∧ t.self.LockInLog) ⟨Peer.zero, [], [], []⟩ := by
    unfold configureEnclave
    refine wp_bind_modifySelf fun t ht ↦ ?_
    have hindices : t.self.indices = ∅ := by
      rw [ht]
      rfl
    have hlock : t.self.LockInLog := Or.inl (by rw [ht])
    clear ht
    rw [wp_bind, wp_getSelf]
    refine wp_bind_along (walk_tenure.leaderMapAt _) fun leader u hu ↦ ?_
    refine wp_bind_modifySelf fun v hv ↦ ?_
    have hv' : v.self.indices = ∅ ∧ v.self.LockInLog := by
      rw [hv]
      exact ⟨hu.indices.trans hindices, hu.locked hlock⟩
    rw [wp_ite]
    refine ⟨fun _ ↦ ?_, fun _ ↦ wp_pure.mpr hv'⟩
    exact wp_mono (becomeLeader_lockInLog v) fun _ w hw ↦ ⟨hw.1.trans hv'.1, hw.2⟩
  obtain ⟨a, t, hrun, -⟩ := runs_configureEnclave cfg id
  unfold configured
  rw [hrun]
  exact call a t hrun

/-- A step that takes current acknowledgements only keeps the indices acknowledged. -/
theorem IndicesAcked.step (current : TakesCurrentAcks s a) (afresh : LeadsAfresh s a)
    (next : s.step cfg a = some t) (ih : ∀ q, IndicesAcked s.net q (s.peers q)) (q : Uid) :
    IndicesAcked t.net q (t.peers q) := by
  obtain ⟨-, e, he, hpeers, hnet, -⟩ := World.step_of_wp (a := a) next
    (tenure_body a.oracle a.call (s.enclave a.peer))
  have sent {r : Uid} {T i : Nat} (hm : ∃ m ∈ s.net, acknowledges q r T i m = true) :
      ∃ m ∈ t.net, acknowledges q r T i m = true := by
    obtain ⟨m, hm, hk⟩ := hm
    exact ⟨m, by rw [hnet]; exact List.mem_append_left _ hm, hk⟩
  rcases eq_or_ne q a.peer with rfl | hne
  · rw [hpeers, Function.update_self]
    rcases he with he | ⟨rsp, hcall, takes, he⟩ | ⟨rsp, hcall, elected, hindices, -⟩
    · intro leads r i hi
      obtain ⟨leads', hterm⟩ := he.leads leads
      rw [he.indices] at hi
      rw [hterm]
      exact sent (ih a.peer leads' r i hi)
    · unfold TakesCurrentAcks at current
      rw [hcall] at current
      intro leads r i hi
      obtain ⟨leads', hterm⟩ := he.leads leads
      rw [he.indices] at hi
      rw [hterm]
      refine sent ?_
      dsimp only at hi
      rw [Std.ExtTreeMap.getElem?_insert] at hi
      split at hi
      · next hsource =>
        obtain rfl := Std.LawfulEqCmp.compare_eq_iff_eq.mp hsource
        obtain rfl := Option.some.inj hi
        exact current takes
      · exact ih a.peer leads' r i hi
    · unfold LeadsAfresh at afresh
      rw [hcall] at afresh
      intro _ r i hi
      rw [hindices, ← Std.ExtTreeMap.mem_toList_iff_getElem?_eq_some,
        show (s.enclave a.peer).self.indices.toList = [] from afresh elected] at hi
      exact nomatch hi
  · rw [hpeers, Function.update_of_ne hne]
    exact fun leads r i hi ↦ sent (ih q leads r i hi)

/-- Over a run that takes acknowledgements fairly, every index of a leader was acknowledged. -/
theorem Run.indicesAcked (run : Run cfg (TakesAcksFairly cfg) h s) (q : Uid) :
    IndicesAcked s.net q (s.peers q) := by
  induction run generalizing q with
  | initial =>
    intro _ r i hi
    rw [show ((World.initial cfg).peers q).indices = ∅ from (configured_tenure cfg q).1] at hi
    exact nomatch hi.symm.trans Std.ExtTreeMap.getElem?_empty
  | step _ meets next ih => exact IndicesAcked.step meets.2.1 meets.2.2 next ih q

/-- What a peer can take as an acknowledgement of its own term stands for its own entries. -/
theorem Run.acknowledged (run : Run cfg (ElectsFairly cfg) h s) {q p : Uid} {i : Nat}
    (sent : ∃ m ∈ s.net, acknowledges q p (s.peers q).term i m = true) :
    i < (s.peers q).log.length ∧ Acknowledged cfg h q p (s.peers q).term i := by
  obtain ⟨m, hm, hk⟩ := sent
  cases m with
  | appendRsp rsp =>
    simp only [acknowledges, Bool.and_eq_true, beq_iff_eq] at hk
    obtain ⟨⟨⟨⟨rfl, rfl⟩, success⟩, term⟩, rfl⟩ := hk
    rcases run.backed rsp hm success with hlt | ⟨-, -, hlast, acknowledged⟩
    · exact absurd (term ▸ hlt) (Nat.lt_irrefl _)
    · rw [← term]
      exact ⟨hlast, acknowledged⟩
  | _ => exact nomatch hk

end

/-- In every run that takes acknowledgements fairly, every index of a leader is in its log, and was
confirmed in its term by the follower, which then had the leader's entries up to there.
`src/enclave/enclave.cpp:705–748`. -/
theorem indices_acknowledged {cfg : Config} {h : Hist} {s : World}
    (run : Run cfg (TakesAcksFairly cfg) h s) {q p : Uid} {i : Nat}
    (leads : (s.peers q).role = .leader) (entered : (s.peers q).indices[p]? = some i) :
    i < (s.peers q).log.length ∧ Acknowledged cfg h q p (s.peers q).term i := by
  have fair : Run cfg (ElectsFairly cfg) h s := run.mono fun _ _ _ meets ↦ meets.1
  exact fair.acknowledged (run.indicesAcked q leads p i entered)

/-- The second of two peers has confirmed the first one's entry. -/
theorem duo_indices_acknowledged : ∃ h s, Run duo (TakesAcksFairly duo) h s ∧
    (s.peers ⟨0, 11⟩).log.length = 2 ∧ Acknowledged duo h ⟨0, 11⟩ ⟨0, 12⟩ 1 1 := by
  obtain ⟨h, s, run, leads, term, hlength, entered⟩ := exists_run_of_replay duo (TakesAcksFairly duo)
    [.tick ⟨0, 11⟩ 1 emptyUid, .tick ⟨0, 12⟩ 1 emptyUid, .tick ⟨0, 11⟩ 10000 emptyUid,
      .deliver ⟨0, 12⟩ 0, .deliver ⟨0, 11⟩ 1, .deliver ⟨0, 12⟩ 2, .deliver ⟨0, 11⟩ 3,
      .start ⟨0, 11⟩ ⟨0, 1⟩ ⟨0, 101⟩, .deliver ⟨0, 11⟩ 5, .deliver ⟨0, 12⟩ 6, .deliver ⟨0, 11⟩ 7]
    (fun _ s ↦ (s.peers ⟨0, 11⟩).role = .leader ∧ (s.peers ⟨0, 11⟩).term = 1 ∧
      (s.peers ⟨0, 11⟩).log.length = 2 ∧ (s.peers ⟨0, 11⟩).indices[(⟨0, 12⟩ : Uid)]? = some 1)
    (by decide +kernel)
  have acknowledged := (indices_acknowledged run leads entered).2
  rw [term] at acknowledged
  exact ⟨h, s, run, hlength, acknowledged⟩

/-- A leader loses an entry, is elected again and takes the old acknowledgement of that entry. -/
theorem not_indices_acknowledged : ¬ ∀ (cfg : Config) (h : Hist) (s : World) (q p : Uid) (i : Nat),
    Run cfg (ElectsFairly cfg) h s → (s.peers q).role = .leader →
    (s.peers q).indices[p]? = some i →
    i < (s.peers q).log.length ∧ Acknowledged cfg h q p (s.peers q).term i := by
  intro claim
  obtain ⟨h, s, run, leads, hlength, entered⟩ := exists_run_of_replay quintet (ElectsFairly quintet)
    [.tick ⟨0, 11⟩ 1 emptyUid, .tick ⟨0, 11⟩ 10000 emptyUid, .tick ⟨0, 14⟩ 1 emptyUid,
      .tick ⟨0, 15⟩ 1 emptyUid, .deliver ⟨0, 14⟩ 2, .deliver ⟨0, 15⟩ 3, .deliver ⟨0, 11⟩ 4,
      .deliver ⟨0, 11⟩ 5, .deliver ⟨0, 14⟩ 8, .deliver ⟨0, 15⟩ 9, .deliver ⟨0, 11⟩ 10,
      .deliver ⟨0, 11⟩ 11, .start ⟨0, 11⟩ ⟨0, 1⟩ ⟨0, 101⟩, .deliver ⟨0, 11⟩ 16,
      .deliver ⟨0, 14⟩ 19, .tick ⟨0, 13⟩ 1 emptyUid, .tick ⟨0, 13⟩ 10000 emptyUid,
      .tick ⟨0, 12⟩ 1 emptyUid, .deliver ⟨0, 12⟩ 23, .deliver ⟨0, 15⟩ 25, .deliver ⟨0, 13⟩ 28,
      .deliver ⟨0, 13⟩ 26, .deliver ⟨0, 12⟩ 30, .deliver ⟨0, 15⟩ 32, .deliver ⟨0, 13⟩ 33,
      .deliver ⟨0, 13⟩ 34, .deliver ⟨0, 11⟩ 35, .tick ⟨0, 11⟩ 30000 emptyUid,
      .deliver ⟨0, 12⟩ 40, .deliver ⟨0, 15⟩ 43, .deliver ⟨0, 11⟩ 44, .deliver ⟨0, 11⟩ 45,
      .deliver ⟨0, 12⟩ 46, .deliver ⟨0, 15⟩ 49, .deliver ⟨0, 11⟩ 50, .deliver ⟨0, 11⟩ 51,
      .deliver ⟨0, 12⟩ 52, .deliver ⟨0, 11⟩ 56, .deliver ⟨0, 11⟩ 21]
    (fun _ s ↦ (s.peers ⟨0, 11⟩).role = .leader ∧ (s.peers ⟨0, 11⟩).log.length = 1 ∧
      (s.peers ⟨0, 11⟩).indices[(⟨0, 14⟩ : Uid)]? = some 1)
    (by decide +kernel)
  have hlast := (claim quintet h s _ _ 1 run leads entered).1
  omega

end TrustedDcr.System
