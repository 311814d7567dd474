import TrustedDcr.System.Cluster

/-!
# Calls as steps of a cluster

Every move of a member is matched by guarded actions on the records, careful ones
where the step commits and removes nothing unconfirmed; so is every call, and
every run. Calls of other clusters' peers change nothing.
-/

namespace TrustedDcr.System
open TrustedDcr.Msg TrustedDcr.Dcr TrustedDcr.Enclave TrustedDcr.Theory

/-- The workflow has executed what the peer committed. -/
def Replica (cfg : Config) (n : Node) (w : DcrWorkflow) : Prop :=
  DcrWorkflow.SameReads (executeEntries (makeWorkflow cfg.workflow) (n.log.take (n.commitIndex + 1))) w

/-- A turn that keeps what is committed executes the rest. -/
theorem Replica.turn {cfg : Config} {n n' : Node} {w w' : DcrWorkflow} (h : Replica cfg n w)
    (replays : Replays n n' w w') (within : n.commitIndex < n.log.length)
    (forward : n.commitIndex ≤ n'.commitIndex) (kept : n.log.take (n.commitIndex + 1) <+: n'.log) :
    Replica cfg n' w' := by
  have hold : (n'.log.take (n'.commitIndex + 1)).take (n.commitIndex + 1) =
      n.log.take (n.commitIndex + 1) := by
    rw [List.take_take, Nat.min_eq_left (by omega), List.prefix_iff_eq_take.mp kept,
      List.length_take_of_le within]
  unfold Replica
  rw [← List.take_append_drop (n.commitIndex + 1) (n'.log.take (n'.commitIndex + 1)), hold,
    executeEntries_append]
  exact (sameReads_executeEntries h _).trans replays

/-- A step of a member of a cluster whose records agree with it. -/
structure Called (cfg : Config) (D : Prop) (x : Uid) (h : Hist) (s : World) (a : Action)
    (g₀ : Records) : Prop where
  wired : Wired cfg s
  delivered : ∀ step ∈ h, ∀ m, step.2.call.received = some m → m ∈ s.net
  received : ∀ m, a.call.received = some m → m ∈ s.net
  member : a.peer ∈ cfg.cluster x
  fair : ElectsFairly cfg h s a
  careful : D → CommitsConfirmed h s a
  sim : Sim D (cfg.cluster x) g₀ (Counted h) (fun q ↦ (s.peers q).node) s.net
  replica : D → Replica cfg (s.peers a.peer).node (s.peers a.peer).workflow

/-- What the call may append by the time its view has drawn these identifiers. -/
def Appends (s : World) (a : Action) (drawn : List Uid) (e : Entry) : Prop :=
  ∃ ds, Origin a.call.received a.oracle (s.peers a.peer) ds e ∧ ds <+: drawn

/-- The records agree with a cluster during a call of one of its members, and have taken steps
since it began. -/
structure Stage (cfg : Config) (D : Prop) (x : Uid) (h : Hist) (s : World) (a : Action)
    (g₀ : Records) (v : View) (g : Records) : Prop where
  steps : Raft.Steps Entry.term (cfg.cluster x) D g₀ g
  sim : Sim D (cfg.cluster x) g (Counted ((s, a) :: h))
    (Function.update (fun q ↦ (s.peers q).node) a.peer v.node) (s.net ++ v.sent)
  wiring : Wiring cfg s a.peer v
  tlogs : ∀ Φ : List Entry → Prop, Φ [] → (∀ l l', l' <+: l → Φ l → Φ l') →
    (∀ T, Φ (g₀.tlog T)) → (∀ e, Appends s a v.drawn e → Φ ((s.peers a.peer).log ++ [e])) →
    ∀ T, Φ (g.tlog T)

/-- The records have followed to the view `w` by steps from `g`. -/
def Followed (cfg : Config) (D : Prop) (x : Uid) (h : Hist) (s : World) (a : Action)
    (g₀ g : Records) (w : View) : Prop :=
  ∃ g', Raft.Steps Entry.term (cfg.cluster x) D g g' ∧ Stage cfg D x h s a g₀ w g'

section
variable {cfg : Config} {D : Prop} {x : Uid} {h : Hist} {s : World} {a : Action} {g₀ g : Records}
  {v w : View}

namespace Stage

/-- The records agree with the calling member. -/
theorem self (c : Called cfg D x h s a g₀) (st : Stage cfg D x h s a g₀ v g) :
    Mirrors (cfg.cluster x) g (Counted ((s, a) :: h) a.peer) a.peer v.node := by
  have hp := st.sim.peers a.peer c.member
  rwa [Function.update_self] at hp

/-- An action of the calling member. -/
theorem act (c : Called cfg D x h s a g₀) (st : Stage cfg D x h s a g₀ v g)
    {b : Raft.Act Uid Entry} (actor : b.actor = a.peer)
    (guard : b.Guard Entry.term (cfg.cluster x) g)
    (careful : D → b.Careful Entry.term (cfg.cluster x) g)
    (appended : ∀ p e, b = .append p e → e.index = (g.log p).length ∧ Appends s a w.drawn e ∧
      v.node.log = (s.peers a.peer).log)
    (self : Mirrors (cfg.cluster x) (g.act b) (Counted ((s, a) :: h) a.peer) a.peer w.node)
    (wiring : Wiring cfg s a.peer w) {L : List Message} (hsent : w.sent = v.sent ++ L)
    (sent : ∀ m ∈ L, Backs D (cfg.cluster x) (g.act b) m) (hdrawn : v.drawn <+: w.drawn) :
    Stage cfg D x h s a g₀ w (g.act b) := by
  have hself := st.self c
  constructor
  case steps => exact st.steps.tail guard careful
  case sim =>
    have hs := st.sim.act guard careful (fun p e he ↦ (appended p e he).1) (actor ▸ self) sent
    rwa [actor, Function.update_idem, List.append_assoc, ← hsent] at hs
  case wiring => exact wiring
  case tlogs =>
    intro Φ nil mono h₀ happ
    refine st.sim.sound.tlog_act nil mono (st.tlogs Φ nil mono h₀ ?_) fun p e he ↦ ?_
    · rintro e ⟨ds, ho, hds⟩
      exact happ e ⟨ds, ho, hds.trans hdrawn⟩
    · obtain ⟨-, ha, hlog⟩ := appended p e he
      obtain rfl : p = a.peer := by
        rw [← actor, he]
        rfl
      rw [hself.log, hlog]
      exact happ e ha

/-- So the records follow. -/
theorem follow (c : Called cfg D x h s a g₀) (st : Stage cfg D x h s a g₀ v g)
    {b : Raft.Act Uid Entry} (actor : b.actor = a.peer)
    (guard : b.Guard Entry.term (cfg.cluster x) g)
    (careful : D → b.Careful Entry.term (cfg.cluster x) g)
    (appended : ∀ p e, b = .append p e → e.index = (g.log p).length ∧ Appends s a w.drawn e ∧
      v.node.log = (s.peers a.peer).log)
    (self : Mirrors (cfg.cluster x) (g.act b) (Counted ((s, a) :: h) a.peer) a.peer w.node)
    (wiring : Wiring cfg s a.peer w) {L : List Message} (hsent : w.sent = v.sent ++ L)
    (sent : ∀ m ∈ L, Backs D (cfg.cluster x) (g.act b) m) (hdrawn : v.drawn <+: w.drawn) :
    Followed cfg D x h s a g₀ g w :=
  ⟨_, .single guard careful, st.act c actor guard careful appended self wiring hsent sent hdrawn⟩

/-- So they do where nothing is appended or sent. -/
theorem follow_silent (c : Called cfg D x h s a g₀) (st : Stage cfg D x h s a g₀ v g)
    {b : Raft.Act Uid Entry} (actor : b.actor = a.peer)
    (guard : b.Guard Entry.term (cfg.cluster x) g)
    (careful : D → b.Careful Entry.term (cfg.cluster x) g) (plain : ∀ p e, b ≠ .append p e)
    (self : Mirrors (cfg.cluster x) (g.act b) (Counted ((s, a) :: h) a.peer) a.peer w.node)
    (wiring : Wiring cfg s a.peer w) (sent : w.sent = v.sent) (drawn : w.drawn = v.drawn) :
    Followed cfg D x h s a g₀ g w := by
  refine st.follow c actor guard careful (fun p e he ↦ absurd he (plain p e)) self wiring
    (L := []) ?_ (List.forall_mem_nil _) ?_
  · rw [sent, List.append_nil]
  · rw [drawn]

/-- A change of the calling member that the records need not follow. -/
theorem tell (st : Stage cfg D x h s a g₀ v g)
    (self : Mirrors (cfg.cluster x) g (Counted ((s, a) :: h) a.peer) a.peer w.node)
    (wiring : Wiring cfg s a.peer w) {L : List Message} (hsent : w.sent = v.sent ++ L)
    (sent : ∀ m ∈ L, ∀ l, m.letter = some l → l.source ∈ cfg.cluster x →
      Backs D (cfg.cluster x) g m) (hdrawn : v.drawn <+: w.drawn) :
    Stage cfg D x h s a g₀ w g where
  steps := st.steps
  sim := by
    have hs := st.sim.tell self sent
    rwa [Function.update_idem, List.append_assoc, ← hsent] at hs
  wiring := wiring
  tlogs := by
    intro Φ nil mono h₀ happ
    refine st.tlogs Φ nil mono h₀ ?_
    rintro e ⟨ds, ho, hds⟩
    exact happ e ⟨ds, ho, hds.trans hdrawn⟩

/-- The records bear out what the member says. -/
theorem bears_out (c : Called cfg D x h s a g₀) (st : Stage cfg D x h s a g₀ v g) {m : Message}
    (hs : Says a.call.received v.node m) : Backs D (cfg.cluster x) g m := by
  have hp := st.self c
  have hsound := st.sim.sound
  obtain ⟨haddr, hsays⟩ := hs
  have hid : v.node.id = a.peer := st.wiring.placed.1
  cases m with
  | appendReq req =>
    obtain ⟨hsource, hterm, -⟩ := haddr _ rfl
    obtain ⟨hleads, hcommit, k, prev, hk, hpt, hpi, hentries⟩ := hsays
    have hlead : g.role a.peer = .leader := by rw [hp.role, hleads]; rfl
    have hT : req.term = g.term a.peer := hterm.trans hp.term.symm
    have htlog : g.tlog req.term = v.node.log := by rw [hT, hsound.leader_log hlead, hp.log]
    have hindexed := st.sim.indexed req.term
    rw [htlog] at hindexed
    have hprev : req.prevIndex = k := hpi.trans (hindexed k prev hk)
    have hlt : k < v.node.log.length := (List.getElem?_eq_some_iff.mp hk).1
    refine ⟨?_, v.node.log.length, ?_, ?_, ?_, ⟨prev, ?_, hpt.symm⟩, ?_, fun hD ↦ ?_⟩
    · rw [hT, hsound.leading hlead]
      exact congrArg some (hid.symm.trans hsource.symm)
    · rw [← htlog]
      exact (hsound.base_isPrefix _).length_le
    · rw [htlog]
    · rwa [hprev]
    · rw [htlog, hprev, hk]
    · rw [htlog, List.take_length, hprev, hentries]
    · have hsafe := st.sim.safe hD
      have hcov := hsafe.covered a.peer
      have hlt := hsafe.commit_lt a.peer
      rw [hp.log, hp.commit, ← hcommit] at hcov hlt
      rw [htlog, hT]
      exact ⟨hlt, hcov⟩
  | appendRsp rsp => exact fun hsuccess ↦ nomatch hsays.1.symm.trans hsuccess
  | electionReq req =>
    obtain ⟨hsource, hterm, -⟩ := haddr _ rfl
    obtain ⟨hstands, last, hlast, hlt, hli⟩ := hsays
    have hstand : g.role a.peer = .candidate := by rw [hp.role, hstands]; rfl
    have hvote := hsound.standing hstand
    have hindexed := hsound.of_tlog Indexed.nil Indexed.of_isPrefix st.sim.indexed a.peer
    have hlast' := hlast
    rw [List.getLast?_eq_getElem?] at hlast'
    rw [hp.log] at hindexed hvote
    refine ⟨v.node.log, last, ?_, hlast, hlt.symm, ?_⟩
    · rw [show req.term = g.term a.peer from hterm.trans hp.term.symm,
        show req.source = a.peer from hsource.trans hid, hvote]
    · have hpos := (List.getElem?_eq_some_iff.mp hlast').1
      rw [hli, hindexed _ last hlast']
      omega
  | electionRsp rsp => exact fun hsuccess ↦ nomatch hsays.symm.trans hsuccess
  | commandReq | commandRsp | pollReq | pollRsp | logReq | logRsp => trivial

end Stage

/-- A letter to the calling member comes from another member. -/
theorem Called.sender (c : Called cfg D x h s a g₀) {m : Message} {l : Letter}
    (received : a.call.received = some m) (letter : m.letter = some l)
    (addressed : l.target = a.peer) : l.source ∈ cfg.cluster x ∧ (cfg.cluster x).card ≠ 1 := by
  have htarget : l.target ∈ cfg.cluster x := addressed.symm ▸ c.member
  obtain ⟨hs, hne⟩ := c.wired.source_mem c.received received letter htarget
  refine ⟨hs, fun hone ↦ hne ?_⟩
  obtain ⟨q, hq⟩ := Finset.card_eq_one.mp hone
  rw [hq, Finset.mem_singleton] at hs htarget
  exact hs.trans htarget.symm

namespace Stage

/-- The records bear out what the member hears. -/
theorem hears (c : Called cfg D x h s a g₀) (st : Stage cfg D x h s a g₀ v g) {m : Message}
    {l : Letter} (received : a.call.received = some m) (letter : m.letter = some l)
    (addressed : l.target = v.node.id) : Backs D (cfg.cluster x) g m ∧
      l.source ∈ cfg.cluster x ∧ (cfg.cluster x).card ≠ 1 := by
  have hs := c.sender received letter (addressed.trans st.wiring.placed.1)
  exact ⟨st.sim.letters m (List.mem_append_left _ (c.received m received)) l letter hs.1, hs⟩

/-! ### Move by move -/

private theorem bump (c : Called cfg D x h s a g₀) (st : Stage cfg D x h s a g₀ v g) {m : Message}
    {l : Letter} (received : a.call.received = some m) (letter : m.letter = some l)
    (addressed : l.target = v.node.id) (higher : v.node.term < l.term)
    (hw : w = { v with node := { v.node with
      term := l.term, role := .follower, endorsement := emptyUid, electionVotes := 1 } })
    (wiring : Wiring cfg s a.peer w) : Followed cfg D x h s a g₀ g w := by
  have hp := st.self c
  obtain ⟨-, -, hmany⟩ := st.hears c received letter addressed
  have guard : g.term a.peer < l.term := hp.term ▸ higher
  refine st.follow_silent c (b := .bump a.peer l.term) rfl guard (fun _ ↦ trivial)
    (by simp) ?_ wiring (by rw [hw]) (by rw [hw])
  rw [hw]
  constructor
  case term => simp [Raft.State.act]
  case role => simp [Raft.State.act, Role.raft]
  case log => exact hp.log
  case commit => exact hp.commit
  case free =>
    intro _ _
    -- a vote in that term would be of a term not reached
    cases hv : g.vote l.term a.peer with
    | none => exact hv
    | some vote => exact absurd (st.sim.sound.vote_le hv) (by omega)
  case votes | acked =>
    intro hr
    cases hr
  case alone => exact fun hone ↦ absurd hone hmany

private theorem stand (c : Called cfg D x h s a g₀) (st : Stage cfg D x h s a g₀ v g)
    (waits : v.node.role ≠ .leader) (known : v.node.term = (s.peers a.peer).term ∨
      ∃ m l, a.call.received = some m ∧ m.letter = some l ∧ v.node.term = l.term)
    (hw : w = { v with node := { v.node with
      term := (v.node.term + 1) % 2 ^ 32
      role := .candidate
      endorsement := emptyUid
      electionVotes := 1 } })
    (wiring : Wiring cfg s a.peer w) :
    Followed cfg D x h s a g₀ g w := by
  have hp := st.self c
  have hterm := c.wired.term_succ c.fair.1 c.received c.member known
  rw [hterm] at hw
  have guard : g.term a.peer < v.node.term + 1 := by
    rw [hp.term]
    omega
  refine st.follow_silent c (b := .stand a.peer (v.node.term + 1)) rfl guard (fun _ ↦ trivial)
    (by simp) ?_ wiring (by rw [hw]) (by rw [hw])
  rw [hw]
  constructor
  case term => simp [Raft.State.act]
  case role => simp [Raft.State.act, Role.raft]
  case log => exact hp.log
  case commit => exact hp.commit
  case free | acked =>
    intro hr
    cases hr
  case votes =>
    intro _
    refine ⟨{a.peer}, Finset.singleton_subset_iff.mpr c.member, rfl, fun q hq ↦ ?_⟩
    obtain rfl := Finset.mem_singleton.mp hq
    exact ⟨⟨g.log a.peer, by simp [Raft.State.act]⟩, Or.inl rfl⟩
  case alone => exact fun hone ↦ absurd (hp.alone hone).2 waits

private theorem grant (c : Called cfg D x h s a g₀) (st : Stage cfg D x h s a g₀ v g)
    {req : ElectionReq} {last : Entry} (received : a.call.received = some (.electionReq req))
    (addressed : req.target = v.node.id) (term : req.term = v.node.term)
    (follows : v.node.role = .follower) (free : v.node.endorsement = emptyUid)
    (hlast : v.node.log.getLast? = some last)
    (ahead : logNotAhead last req.lastTerm req.lastIndex = true)
    (hw : w = ⟨{ v.node with endorsement := req.source },
      v.sent ++ [.electionRsp ⟨req.source, v.node.id, v.node.term, true⟩], v.drawn⟩)
    (wiring : Wiring cfg s a.peer w) :
    Followed cfg D x h s a g₀ g w := by
  have hp := st.self c
  obtain ⟨hbacks, -, hmany⟩ := st.hears c received (l := ⟨req.source, req.target, req.term⟩)
    rfl addressed
  obtain ⟨l, last', hvote, hlast', hlt, hlen⟩ := hbacks
  have hnone := hp.free follows free
  have hup : Raft.UpToDate Entry.term l (g.log a.peer) := by
    have hindexed := st.sim.sound.of_tlog Indexed.nil Indexed.of_isPrefix st.sim.indexed a.peer
    rw [hp.log] at hindexed ⊢
    unfold Raft.UpToDate Raft.lastTm
    rw [hlast, hlast']
    rw [List.getLast?_eq_getElem?] at hlast
    have hi := hindexed _ last hlast
    have hpos := (List.getElem?_eq_some_iff.mp hlast).1
    simp only [logNotAhead, Bool.not_eq_true', Bool.or_eq_false_iff, Bool.and_eq_false_iff,
      decide_eq_false_iff_not, beq_eq_false_iff_ne, ne_eq] at ahead
    dsimp only [Option.map_some, Option.getD_some]
    omega
  have guard : (Raft.Act.grant a.peer req.source).Guard Entry.term (cfg.cluster x) g := by
    refine ⟨?_, ?_, l, ?_, hup⟩
    · rw [hp.role, follows]
      rfl
    · rwa [hp.term]
    · rwa [hp.term, ← term]
  have hnew : (g.act (.grant a.peer req.source)).vote v.node.term a.peer =
      some (req.source, g.log a.peer) := by
    simp [Raft.State.act, hp.term]
  refine st.follow c (b := .grant a.peer req.source) rfl guard (fun _ ↦ trivial)
    (by rintro _ _ ⟨⟩) ?_ wiring (L := [.electionRsp ⟨req.source, v.node.id, v.node.term, true⟩])
    (by rw [hw]) ?_ (by rw [hw])
  · rw [hw]
    constructor
    case term => exact hp.term
    case role => exact hp.role
    case log => exact hp.log
    case commit => exact hp.commit
    case free =>
      intro _ hempty
      have hfair := c.fair.2
      unfold CountsVotesOnce at hfair
      rw [Call.eq_recv received] at hfair
      exact absurd hempty hfair
    case votes =>
      intro hr
      cases follows.symm.trans hr
    case acked =>
      intro hr
      cases follows.symm.trans hr
    case alone => exact fun hone ↦ absurd hone hmany
  · intro m hm
    obtain rfl := List.mem_singleton.mp hm
    intro _
    refine ⟨g.log a.peer, ?_⟩
    rw [← hnew, ← st.wiring.placed.1]

private theorem count (c : Called cfg D x h s a g₀) (st : Stage cfg D x h s a g₀ v g)
    {rsp : ElectionRsp}
    (received : a.call.received = some (.electionRsp rsp)) (addressed : rsp.target = v.node.id)
    (term : rsp.term ≤ v.node.term) (stands : v.node.role = .candidate)
    (granted : rsp.success = true) (start : v.node = (s.peers a.peer).node)
    (hw : w = { v with node := { v.node with electionVotes := v.node.electionVotes + 1 } })
    (wiring : Wiring cfg s a.peer w) : Followed cfg D x h s a g₀ g w := by
  have hp := st.self c
  have hid := st.wiring.placed.1
  have hcall : a.call = .recv (.electionRsp rsp) := Call.eq_recv received
  obtain ⟨hbacks, hsource, -⟩ := st.hears c received (l := ⟨rsp.source, rsp.target, rsp.term⟩)
    rfl addressed
  have hother : rsp.source ≠ a.peer := by
    obtain ⟨-, hne, -⟩ := c.wired.received c.received received
      (l := ⟨rsp.source, rsp.target, rsp.term⟩) rfl
    rw [← hid, ← addressed]
    exact hne
  obtain ⟨hnow, honce⟩ : rsp.term = v.node.term ∧ ¬Counted h a.peer rsp.term rsp.source := by
    have hfair := c.fair.2
    unfold CountsVotesOnce at hfair
    rw [hcall] at hfair
    rw [start] at addressed stands term ⊢
    exact hfair addressed stands term granted
  -- the voters so far are those of the start of the call
  obtain ⟨V, hV, hcard, hvotes⟩ := (c.sim.peers a.peer c.member).votes (start ▸ stands)
  rw [← start] at hcard hvotes
  have hx := c.sim.sound.steps_ext st.steps
  refine ⟨g, .refl g, st.tell ?_ wiring (L := []) (by rw [hw, List.append_nil])
    (List.forall_mem_nil _) (by rw [hw])⟩
  rw [hw]
  constructor
  case term => exact hp.term
  case role => exact hp.role
  case log => exact hp.log
  case commit => exact hp.commit
  case free => exact fun hr ↦ nomatch stands.symm.trans hr
  case acked => exact fun hr ↦ nomatch stands.symm.trans hr
  case alone => exact fun hone ↦ hp.alone hone
  case votes =>
    intro _
    have hnew : rsp.source ∉ V := by
      intro hin
      rcases (hvotes _ hin).2 with hq | hq
      · exact hother hq
      · exact honce (hnow ▸ hq)
    refine ⟨insert rsp.source V, Finset.insert_subset hsource hV, ?_, fun q hq ↦ ?_⟩
    · rw [Finset.card_insert_of_notMem hnew, hcard]
    · rcases Finset.mem_insert.mp hq with rfl | hq
      · obtain ⟨l, hl⟩ := hbacks granted
        refine ⟨⟨l, ?_⟩, Or.inr ⟨(s, a), List.mem_cons_self, ?_⟩⟩
        · rw [← hid, ← addressed, ← hl, hnow]
        · have htarget : rsp.target = (s.peers a.peer).id := addressed.trans (congrArg Node.id start)
          have hrole : (s.peers a.peer).role = .candidate :=
            (congrArg Node.role start).symm.trans stands
          have hterm : (s.peers a.peer).term = v.node.term := (congrArg Node.term start).symm
          unfold countsVote
          rw [hcall]
          simp [htarget, hrole, hterm, granted, hnow]
      · obtain ⟨⟨l, hl⟩, hseen⟩ := hvotes q hq
        refine ⟨⟨l, hx.vote hl⟩, hseen.imp_right ?_⟩
        rintro ⟨step, hstep, hcounts⟩
        exact ⟨step, List.mem_cons_of_mem _ hstep, hcounts⟩

private theorem elect (c : Called cfg D x h s a g₀) (st : Stage cfg D x h s a g₀ v g)
    (stands : v.node.role = .candidate) (quorum : v.node.clusterSize / 2 < v.node.electionVotes)
    (hw : w = { v with node := { v.node with role := .leader } }) (wiring : Wiring cfg s a.peer w) :
    Followed cfg D x h s a g₀ g w := by
  have hp := st.self c
  obtain ⟨V, hV, hcard, hvotes⟩ := hp.votes stands
  have hsize : v.node.clusterSize = (cfg.cluster x).card :=
    (st.wiring.placed.card_cluster c.member).symm
  have guard : (Raft.Act.elect a.peer).Guard Entry.term (cfg.cluster x) g := by
    refine ⟨by rw [hp.role, stands]; rfl, V, hV, by omega, fun q hq ↦ ?_⟩
    rw [hp.term]
    exact (hvotes q hq).1
  refine st.follow_silent c (b := .elect a.peer) rfl guard (fun _ ↦ trivial)
    (by simp) ?_ wiring (by rw [hw]) (by rw [hw])
  rw [hw]
  constructor
  case term => exact hp.term
  case role => simp [Raft.State.act, Role.raft]
  case log => exact hp.log
  case commit => exact hp.commit
  case free | votes =>
    intro hr
    cases hr
  case acked => simp [Raft.State.act, hp.term, hp.log]
  case alone => exact fun hone ↦ absurd (stands.symm.trans (hp.alone hone).2) (by decide)

private theorem append (c : Called cfg D x h s a g₀) (st : Stage cfg D x h s a g₀ v g) {e : Entry}
    (leads : v.node.role = .leader) (log : v.node.log = (s.peers a.peer).log)
    (term : v.node.term = (s.peers a.peer).term)
    (origin : Origin a.call.received a.oracle (s.peers a.peer) v.drawn e)
    (hw : w = { v with node := { v.node with log := v.node.log ++ [e] } })
    (wiring : Wiring cfg s a.peer w) : Followed cfg D x h s a g₀ g w := by
  have hp := st.self c
  obtain ⟨hindex, hterm⟩ := origin.position
  have guard : (Raft.Act.append a.peer e).Guard Entry.term (cfg.cluster x) g := by
    refine ⟨by rw [hp.role, leads]; rfl, ?_⟩
    rw [hp.term, term, hterm]
  refine st.follow c (b := .append a.peer e) rfl guard (fun _ ↦ trivial) ?_ ?_ wiring
    (L := []) (by rw [hw, List.append_nil]) (List.forall_mem_nil _) (by rw [hw])
  · rintro p e' he
    obtain ⟨rfl, rfl⟩ : a.peer = p ∧ e = e' := by
      injection he with h₁ h₂
      exact ⟨h₁, h₂⟩
    refine ⟨?_, ⟨v.drawn, origin, by rw [hw]⟩, log⟩
    rw [hp.log, log, hindex]
  · rw [hw]
    constructor
    case term => exact hp.term
    case role => exact hp.role
    case log => simp [Raft.State.act, hp.log]
    case commit => exact hp.commit
    case free | votes =>
      intro hr
      cases leads.symm.trans hr
    case acked => simp [Raft.State.act, hp.term, hp.log]
    case alone => exact fun hone ↦ hp.alone hone

private theorem accept (c : Called cfg D x h s a g₀) (st : Stage cfg D x h s a g₀ v g)
    {req : AppendReq} {prev : Entry} (received : a.call.received = some (.appendReq req))
    (addressed : req.target = v.node.id) (term : req.term = v.node.term)
    (follows : v.node.role = .follower)
    (opens : (s.peers a.peer).term < req.term ∨ (s.peers a.peer).role = .follower)
    (log : v.node.log = (s.peers a.peer).log) (hprev : v.node.log[req.prevIndex]? = some prev)
    (hterm : prev.term = req.prevTerm)
    (hw : w = ⟨v.node.accept req,
      v.sent ++ [.appendRsp ⟨req.source, v.node.id, v.node.term, req.prevTerm, req.prevIndex,
        true, (v.node.accept req).log.length - 1⟩], v.drawn⟩)
    (wiring : Wiring cfg s a.peer w) : Followed cfg D x h s a g₀ g w := by
  have hp := st.self c
  have hsound := st.sim.sound
  have hid := st.wiring.placed.1
  obtain ⟨hbacks, -, hmany⟩ := st.hears c received (l := ⟨req.source, req.target, req.term⟩)
    rfl addressed
  obtain ⟨hleader, k, hbase, hk, hlt, ⟨prev', hprev', hpt'⟩, hentries, hcommit⟩ := hbacks
  have hT : req.term = g.term a.peer := term.trans hp.term.symm
  -- the entry before agrees in its term, so the logs agree up to it
  have hlog : v.node.log.take (req.prevIndex + 1) ++ req.entries = (g.tlog req.term).take k := by
    have hmine := hsound.ok_log a.peer req.prevIndex prev (by rw [hp.log, hprev])
    have htheirs := hsound.ok_tlog req.term req.prevIndex prev' hprev'
    rw [hp.log] at hmine
    have htake : (g.tlog req.term).take (req.prevIndex + 1) =
        ((g.tlog req.term).take k).take (req.prevIndex + 1) := by
      rw [List.take_take, Nat.min_eq_left hlt]
    rw [hmine, hterm, ← hpt', ← htheirs, hentries, htake, List.take_append_drop]
  have hcall : a.call = .recv (.appendReq req) := Call.eq_recv received
  have hguard : (Raft.Act.adopt a.peer k).Guard Entry.term (cfg.cluster x) g := by
    refine ⟨by rw [hp.role, follows]; rfl, ⟨req.source, ?_⟩, ?_, ?_⟩
    · rw [← hT, hleader]
    · rwa [← hT]
    · rwa [← hT]
  have hcareful : D → (Raft.Act.adopt a.peer k).Careful Entry.term (cfg.cluster x) g := by
    intro hD i e hi he
    have hkeeps := c.careful hD
    unfold CommitsConfirmed at hkeeps
    rw [hcall] at hkeeps
    rw [← hT]
    refine hkeeps ?_ e ?_
    · have htarget : req.target = (s.peers a.peer).id :=
        (addressed.trans hid).trans (c.wired.placed a.peer).1.symm
      have hle : (s.peers a.peer).term ≤ req.term := by
        rw [term]
        exact st.wiring.grown
      have hrole : (s.peers a.peer).term < req.term ∨
          (s.peers a.peer).term = req.term ∧ (s.peers a.peer).role = .follower := by
        rcases Nat.lt_or_eq_of_le hle with hlt | heq
        · exact Or.inl hlt
        · exact Or.inr ⟨heq, opens.resolve_left (by omega)⟩
      unfold Peer.accepts Peer.termAndIndexExistInLog
      rw [← log, hprev]
      simpa [htarget, hterm] using hrole
    · have hlen : req.prevIndex + 1 + req.entries.length = k := by
        rw [hentries, List.length_drop, List.length_take_of_le hk]
        omega
      rw [hlen, ← log]
      rw [hp.log] at he
      refine List.mem_of_getElem? (i := i - k) ?_
      rw [List.getElem?_drop, show k + (i - k) = i by omega, he]
  have hadopted : (g.act (.adopt a.peer k)).log a.peer = (v.node.accept req).log := by
    rw [show (v.node.accept req).log = (g.tlog req.term).take k from hlog]
    simp [Raft.State.act, ← hT]
  have hlength : (v.node.accept req).log.length = k := by
    rw [show (v.node.accept req).log = (g.tlog req.term).take k from hlog, List.length_take_of_le hk]
  have hnew : (v.node.accept req).commitIndex = if req.commitIndex > v.node.commitIndex then
      min req.commitIndex (k - 1) else v.node.commitIndex := by
    rw [← hlength]
    rfl
  -- first the entries, then the commit index
  let w₁ : View := { v with node := { v.node with log := (v.node.accept req).log } }
  have st₁ : Stage cfg D x h s a g₀ w₁ (g.act (.adopt a.peer k)) := by
    refine st.act c rfl hguard hcareful (by rintro _ _ ⟨⟩) ?_
      ⟨st.wiring.placed, st.wiring.grown, st.wiring.posted⟩ (L := []) (List.append_nil _).symm
      (List.forall_mem_nil _) List.prefix_rfl
    constructor
    case term => exact hp.term
    case role => exact hp.role
    case log => exact hadopted
    case commit => exact hp.commit
    case free => exact fun _ he ↦ hp.free follows he
    case votes | acked =>
      intro hr
      cases follows.symm.trans hr
    case alone => exact fun hone ↦ absurd hone hmany
  have hp₁ := st₁.self c
  have hcommits : D → (Raft.Act.commit a.peer (v.node.accept req).commitIndex).Careful Entry.term
      (cfg.cluster x) (g.act (.adopt a.peer k)) := by
    intro hD
    have hsafe := st₁.sim.safe hD
    have hlt₁ : v.node.commitIndex < k := by
      have := hsafe.commit_lt a.peer
      rwa [hp₁.commit, hadopted, hlength] at this
    have hcov₁ := hsafe.covered a.peer
    rw [hp₁.commit, hadopted] at hcov₁
    refine ⟨?_, ?_, ?_⟩
    · rw [hp₁.commit, hnew]
      change v.node.commitIndex ≤ _
      split <;> omega
    · rw [hadopted, hlength, hnew]
      split <;> omega
    · rw [hadopted, hnew]
      split
      · obtain ⟨-, hcov⟩ := hcommit hD
        refine hcov.mono (hsound.ext hguard) (Nat.le_of_eq hT) ?_
        rw [show (v.node.accept req).log = (g.tlog req.term).take k from hlog, List.take_take]
        exact List.take_prefix_take_left (by omega)
      · exact hcov₁
  obtain ⟨g', hsteps, hst⟩ : Followed cfg D x h s a g₀ (g.act (.adopt a.peer k)) w := by
    refine st₁.follow c (b := .commit a.peer (v.node.accept req).commitIndex) rfl trivial hcommits
      (by rintro _ _ ⟨⟩) ?_ wiring (by rw [hw]) ?_ (by rw [hw])
    · rw [hw]
      constructor
      case term => exact hp.term
      case role => exact hp.role
      case log => exact hadopted
      case commit => simp [Raft.State.act]
      case free => exact fun _ he ↦ hp.free follows he
      case votes | acked =>
        intro hr
        cases follows.symm.trans hr
      case alone => exact fun hone ↦ absurd hone hmany
    · intro m hm
      obtain rfl := List.mem_singleton.mp hm
      intro _
      dsimp only
      rw [hlength, hid, ← term]
      simp [Raft.State.act, ← hT]
      omega
  exact ⟨g', (Raft.Steps.single hguard hcareful).trans hsteps, hst⟩

/-- What members confirmed to the calling leader they have taken over. -/
theorem acked_of_confirmed (c : Called cfg D x h s a g₀) (st : Stage cfg D x h s a g₀ v g)
    {T index : Nat} {q : Uid} (hq : q ∈ cfg.cluster x)
    (hc : Confirmed ((s, a) :: h) a.peer T q index) : index < g.acked T q := by
  obtain ⟨step, hstep, hconfirms⟩ := hc
  unfold confirms at hconfirms
  split at hconfirms
  · next rsp hcall =>
    simp only [Bool.and_eq_true, beq_iff_eq, decide_eq_true_eq] at hconfirms
    obtain ⟨⟨⟨⟨-, hsuccess⟩, hterm⟩, hsource⟩, hle⟩ := hconfirms
    have hreceived : step.2.call.received = some (.appendRsp rsp) := by rw [hcall]; rfl
    have hnet : Message.appendRsp rsp ∈ s.net := by
      rcases List.mem_cons.mp hstep with rfl | hstep
      · exact c.received _ hreceived
      · exact c.delivered step hstep _ hreceived
    have hbacks := st.sim.letters _ (List.mem_append_left _ hnet) _ rfl (hsource.symm ▸ hq)
    rw [← hterm, ← hsource]
    exact Nat.lt_of_le_of_lt hle (hbacks hsuccess)
  · exact Bool.noConfusion hconfirms

private theorem commit (c : Called cfg D x h s a g₀) (st : Stage cfg D x h s a g₀ v g)
    {rsp : AppendRsp} {index : Nat} (received : a.call.received = some (.appendRsp rsp))
    (start : v.node = (s.peers a.peer).node) (commits : (s.peers a.peer).commits rsp = some index)
    (hw : w = { v with node := { v.node with commitIndex := index } })
    (wiring : Wiring cfg s a.peer w) : Followed cfg D x h s a g₀ g w := by
  have hp := st.self c
  rw [start] at hp
  have hplaced := c.wired.placed a.peer
  obtain ⟨⟨-, hleads, -⟩, -, e, he, hterm, hahead⟩ := Peer.commits_eq_some.mp commits
  have hlead : g.role a.peer = .leader := by
    rw [hp.role, Role.raft_eq_leader]
    exact hleads
  have htlog : g.tlog (g.term a.peer) = (s.peers a.peer).log :=
    (st.sim.sound.leader_log hlead).trans hp.log
  have hlt := (List.getElem?_eq_some_iff.mp he).1
  have hcareful : D → (Raft.Act.commit a.peer index).Careful Entry.term (cfg.cluster x) g := by
    intro hD
    have hquorum := c.careful hD
    unfold CommitsConfirmed at hquorum
    rw [Call.eq_recv received] at hquorum
    replace hquorum := hquorum index commits
    refine ⟨?_, ?_, g.term a.peer, Nat.le_refl _, index + 1, ⟨⟨e, ?_, ?_⟩, Nat.succ_pos _,
      insert a.peer (confirmers ((s, a) :: h) (s.peers a.peer) index).toFinset, ?_, ?_, ?_⟩, ?_⟩
    · rw [hp.commit]
      exact Nat.le_of_lt hahead
    · rw [hp.log]
      exact hlt
    · rwa [htlog, Nat.add_sub_cancel]
    · rw [hterm]
      exact hp.term.symm
    · refine Finset.insert_subset c.member fun q hq ↦ ?_
      have hm := (mem_otherMembers.mp (List.mem_filter.mp (List.mem_toFinset.mp hq)).1).1
      rw [show (s.peers a.peer).clusterMembers = _ from hplaced.2.1,
        Config.clusterOf_of_mem c.member] at hm
      exact List.mem_toFinset.mpr hm
    · have hnodup : (confirmers ((s, a) :: h) (s.peers a.peer) index).Nodup := by
        refine List.Nodup.filter _ (List.Nodup.filter _ ?_)
        rw [show (s.peers a.peer).clusterMembers = _ from hplaced.2.1]
        exact Config.nodup_members
      have hself : a.peer ∉ (confirmers ((s, a) :: h) (s.peers a.peer) index).toFinset := by
        intro hm
        exact (mem_otherMembers.mp (List.mem_filter.mp (List.mem_toFinset.mp hm)).1).2
          hplaced.1.symm
      rw [Finset.card_insert_of_notMem hself, List.toFinset_card_of_nodup hnodup,
        hplaced.card_cluster c.member]
      exact hquorum
    · intro q hq
      rcases Finset.mem_insert.mp hq with rfl | hq
      · rw [hp.term]
        exact Nat.lt_of_lt_of_le hlt (hp.acked hleads)
      · have hin := List.mem_filter.mp (List.mem_toFinset.mp hq)
        have hm := (mem_otherMembers.mp hin.1).1
        rw [show (s.peers a.peer).clusterMembers = _ from hplaced.2.1,
          Config.clusterOf_of_mem c.member] at hm
        rw [hp.term]
        refine st.acked_of_confirmed c (List.mem_toFinset.mpr hm) ?_
        have hconf := of_decide_eq_true hin.2
        rwa [show (s.peers a.peer).id = _ from hplaced.1] at hconf
    · rw [htlog, hp.log]
      exact List.prefix_rfl
  refine st.follow_silent c (b := .commit a.peer index) rfl trivial hcareful
    (by simp) ?_ wiring (by rw [hw]) (by rw [hw])
  rw [hw, start]
  exact ⟨hp.term, hp.role, hp.log, by simp [Raft.State.act], hp.free, hp.votes, hp.acked, hp.alone⟩

private theorem commitAlone (c : Called cfg D x h s a g₀) (st : Stage cfg D x h s a g₀ v g)
    (leads : v.node.role = .leader) (alone : v.node.clusterSize = 1) (nonempty : v.node.log ≠ [])
    (hw : w = { v with node := { v.node with commitIndex := v.node.log.length - 1 } })
    (wiring : Wiring cfg s a.peer w) :
    Followed cfg D x h s a g₀ g w := by
  have hp := st.self c
  have hone : (cfg.cluster x).card = 1 := (st.wiring.placed.card_cluster c.member).trans alone
  have hlead : g.role a.peer = .leader := by
    rw [hp.role, leads]
    rfl
  have htlog : g.tlog (g.term a.peer) = v.node.log :=
    (st.sim.sound.leader_log hlead).trans hp.log
  have hpos := List.length_pos_iff.mpr nonempty
  have hcareful : D → (Raft.Act.commit a.peer (v.node.log.length - 1)).Careful Entry.term
      (cfg.cluster x) g := by
    intro hD
    have hlt := (st.sim.safe hD).commit_lt a.peer
    -- a peer alone stays in the first term, and so do its entries
    have hterm : ∀ e ∈ v.node.log, e.term = g.term a.peer := by
      intro e he
      have hle := st.sim.sound.terms a.peer e (hp.log ▸ he)
      have hzero := (hp.alone hone).1
      rw [hp.term] at hle ⊢
      omega
    have hlast := List.getElem?_eq_getElem (l := v.node.log)
      (show v.node.log.length - 1 < v.node.log.length by omega)
    refine ⟨?_, ?_, g.term a.peer, Nat.le_refl _, v.node.log.length,
      ⟨⟨_, by rw [htlog]; exact hlast, hterm _ (List.getElem_mem _)⟩, hpos, {a.peer},
        Finset.singleton_subset_iff.mpr c.member, ?_, ?_⟩, ?_⟩
    · rw [hp.log] at hlt
      omega
    · rw [hp.log]
      omega
    · rw [hone, Finset.card_singleton]
      omega
    · intro q hq
      obtain rfl := Finset.mem_singleton.mp hq
      rw [hp.term]
      exact hp.acked leads
    · rw [htlog, hp.log, Nat.sub_add_cancel hpos]
  refine st.follow_silent c (b := .commit a.peer (v.node.log.length - 1)) rfl trivial hcareful
    (by simp) ?_ wiring (by rw [hw]) (by rw [hw])
  rw [hw]
  exact ⟨hp.term, hp.role, hp.log, by simp [Raft.State.act], hp.free, hp.votes, hp.acked, hp.alone⟩

/-- Every move of the calling member is a sequence of actions. -/
theorem move (c : Called cfg D x h s a g₀) (st : Stage cfg D x h s a g₀ v g)
    (move : Move a.call.received a.oracle (s.peers a.peer) v w) :
    Followed cfg D x h s a g₀ g w := by
  have wiring := st.wiring.move c.wired c.fair.1 c.received c.member move
  cases move with
  | say ms ds spoken =>
    have hp := st.self c
    refine ⟨g, .refl g, st.tell hp wiring rfl (fun m hm _ _ _ ↦ ?_) (List.prefix_append _ _)⟩
    exact st.bears_out c (spoken m hm)
  | bump received letter addressed higher =>
    exact st.bump c received letter addressed higher rfl wiring
  | stand waits known => exact st.stand c waits known rfl wiring
  | grant received addressed term follows free hlast ahead =>
    exact st.grant c received addressed term follows free hlast ahead rfl wiring
  | count received addressed term stands granted start =>
    exact st.count c received addressed term stands granted start rfl wiring
  | elect stands quorum => exact st.elect c stands quorum rfl wiring
  | append leads log term origin => exact st.append c leads log term origin rfl wiring
  | accept received addressed term follows opens log hprev hterm =>
    exact st.accept c received addressed term follows opens log hprev hterm rfl wiring
  | commit received start commits => exact st.commit c received start commits rfl wiring
  | commitAlone leads alone nonempty => exact st.commitAlone c leads alone nonempty rfl wiring

end Stage

/-- Every call of a member is a sequence of actions, and executes what the member commits. -/
theorem Called.turns (c : Called cfg D x h s a g₀) {v : View × DcrWorkflow}
    (turns : Relation.ReflTransGen (Turn a.call.received a.oracle (s.peers a.peer))
      ((s.enclave a.peer).view, (s.peers a.peer).workflow) v) :
    ∃ g, Stage cfg D x h s a g₀ v.1 g ∧ (D → Replica cfg v.1.node v.2) := by
  induction turns with
  | refl =>
    refine ⟨g₀, ⟨.refl g₀, ?_, Wiring.start c.wired a.peer, fun Φ _ _ h₀ _ ↦ h₀⟩, c.replica⟩
    have hs := c.sim.mono fun q T v ⟨step, hstep, hcounts⟩ ↦
      (⟨step, List.mem_cons_of_mem _ hstep, hcounts⟩ : Counted ((s, a) :: h) q T v)
    have hnodes : Function.update (fun q ↦ (s.peers q).node) a.peer (s.enclave a.peer).view.node =
        fun q ↦ (s.peers q).node := Function.update_eq_self _ _
    rw [hnodes, show s.net ++ (s.enclave a.peer).view.sent = s.net from List.append_nil _]
    exact hs
  | tail _ turn ih =>
    obtain ⟨g, st, replica⟩ := ih
    obtain ⟨g', steps, st'⟩ := st.move c turn.1
    refine ⟨g', st', fun hD ↦ ?_⟩
    have hp := st.self c
    have hp' := st'.self c
    have hsafe := st.sim.safe hD
    have hlt := hsafe.commit_lt a.peer
    obtain ⟨hle, hkept⟩ := hsafe.steps_committed st.sim.sound hD steps a.peer
    rw [hp.log, hp.commit] at hlt
    rw [hp.commit, hp'.commit] at hle
    rw [hp.log, hp.commit, hp'.log] at hkept
    exact (replica hD).turn turn.2 hlt hle hkept

end

/-! ### Runs -/

/-- All states of a run, the last one first. -/
def states (h : Hist) (s : World) : List World := s :: h.map Prod.fst

/-- What the calling member may have appended by a step. -/
def Appended (s : World) (a : Action) (t : World) (e : Entry) : Prop :=
  ∃ ds, Origin a.call.received a.oracle (s.peers a.peer) ds e ∧ s.uids ++ ds <+: t.uids

/-- The records agree with a cluster at the end of a run and recall its leaders and what its
members had committed. -/
structure Tracked (cfg : Config) (D : Prop) (x : Uid) (h : Hist) (s : World) (g : Records) :
    Prop where
  sim : Sim D (cfg.cluster x) g (Counted h) (fun q ↦ (s.peers q).node) s.net
  led : ∀ s' ∈ states h s, ∀ p ∈ cfg.cluster x, (s'.peers p).role = .leader →
    g.elected (s'.peers p).term = some p
  covered : D → ∀ s' ∈ states h s, ∀ p ∈ cfg.cluster x,
    (s'.peers p).commitIndex < (s'.peers p).log.length ∧
      g.Covered Entry.term (cfg.cluster x) (s'.peers p).term
        ((s'.peers p).log.take ((s'.peers p).commitIndex + 1))
  replica : D → ∀ p ∈ cfg.cluster x, Replica cfg (s.peers p).node (s.peers p).workflow

section
variable {cfg : Config} {D : Prop} {x : Uid} {h : Hist} {s t : World} {a : Action}
  {g g' : Records}

/-- What the records recall of earlier states, they recall when they have grown. -/
theorem Tracked.of_sim
    (led : ∀ s' ∈ h.map Prod.fst, ∀ p ∈ cfg.cluster x, (s'.peers p).role = .leader →
      g'.elected (s'.peers p).term = some p)
    (covered : D → ∀ s' ∈ h.map Prod.fst, ∀ p ∈ cfg.cluster x,
      (s'.peers p).commitIndex < (s'.peers p).log.length ∧
        g'.Covered Entry.term (cfg.cluster x) (s'.peers p).term
          ((s'.peers p).log.take ((s'.peers p).commitIndex + 1)))
    (replica : D → ∀ p ∈ cfg.cluster x, Replica cfg (s.peers p).node (s.peers p).workflow)
    (sim : Sim D (cfg.cluster x) g' (Counted h) (fun q ↦ (s.peers q).node) s.net) :
    Tracked cfg D x h s g' where
  sim := sim
  replica := replica
  led := by
    intro s' hs' p hp hleads
    rcases List.mem_cons.mp hs' with rfl | hs'
    · have hm := sim.peers p hp
      have hlead : g'.role p = .leader := by
        rw [hm.role, Role.raft_eq_leader]
        exact hleads
      have he := sim.sound.leading hlead
      rwa [hm.term] at he
    · exact led s' hs' p hp hleads
  covered := by
    intro hD s' hs' p hp
    rcases List.mem_cons.mp hs' with rfl | hs'
    · have hm := sim.peers p hp
      have hlt := (sim.safe hD).commit_lt p
      have hcov := (sim.safe hD).covered p
      rw [hm.log, hm.commit] at hlt hcov
      rw [hm.term] at hcov
      exact ⟨hlt, hcov⟩
    · exact covered hD s' hs' p hp

/-- A step is matched by actions; what it appends is all that the longest logs gain. -/
theorem Tracked.step (tracked : Tracked cfg D x h s g) (wired : Wired cfg s)
    (delivered : ∀ step ∈ h, ∀ m, step.2.call.received = some m → m ∈ s.net)
    (fair : ElectsFairly cfg h s a) (careful : D → CommitsConfirmed h s a)
    (next : s.step cfg a = some t) : ∃ g', Raft.Steps Entry.term (cfg.cluster x) D g g' ∧
      Tracked cfg D x ((s, a) :: h) t g' ∧
      ∀ Φ : List Entry → Prop, Φ [] → (∀ l l', l' <+: l → Φ l → Φ l') → (∀ T, Φ (g.tlog T)) →
        (a.peer ∈ cfg.cluster x → ∀ e, Appended s a t e → Φ ((s.peers a.peer).log ++ [e])) →
        ∀ T, Φ (g'.tlog T) := by
  obtain ⟨allowed, e, goes, hpeers, hnet, huids⟩ := World.step_cases next
  have hnodes : (fun q ↦ (t.peers q).node) =
      Function.update (fun q ↦ (s.peers q).node) a.peer e.self.node := by
    funext q
    rw [hpeers]
    rcases eq_or_ne q a.peer with rfl | hq
    · simp
    · simp [hq]
  by_cases member : a.peer ∈ cfg.cluster x
  · obtain ⟨g', st, replica⟩ := Called.turns ⟨wired, delivered, allowed.received, member, fair, careful,
      tracked.sim, fun hD ↦ tracked.replica hD _ member⟩ goes.turns
    have hx := tracked.sim.sound.steps_ext st.steps
    refine ⟨g', st.steps, Tracked.of_sim ?_ ?_ ?_ ?_, ?_⟩
    · exact fun s' hs' p hp hleads ↦ hx.elected (tracked.led s' hs' p hp hleads)
    · intro hD s' hs' p hp
      obtain ⟨hlt, hcov⟩ := tracked.covered hD s' hs' p hp
      exact ⟨hlt, hcov.mono hx (Nat.le_refl _) List.prefix_rfl⟩
    · intro hD q hq
      rw [hpeers]
      rcases eq_or_ne q a.peer with rfl | hne
      · rw [Function.update_self]
        exact replica hD
      · rw [Function.update_of_ne hne]
        exact tracked.replica hD q hq
    · rw [hnodes, hnet]
      exact st.sim
    · intro Φ nil mono h₀ happ
      refine st.tlogs Φ nil mono h₀ ?_
      rintro e ⟨ds, ho, hds⟩
      refine happ member e ⟨ds, ho, ?_⟩
      rw [huids]
      exact (List.prefix_append_right_inj _).mpr hds
  · have hw := (Wiring.start wired a.peer).moves wired fair.1 allowed.received
      (Config.mem_cluster_clusterOf allowed.1) goes.moves
    have hother {q : Uid} (hq : q ∈ cfg.cluster x) : q ≠ a.peer := by
      rintro rfl
      exact member hq
    refine ⟨g, .refl g, Tracked.of_sim tracked.led tracked.covered ?_ ?_, fun _ _ _ h₀ _ ↦ h₀⟩
    · intro hD q hq
      rw [hpeers, Function.update_of_ne (hother hq)]
      exact tracked.replica hD q hq
    constructor
    case sound => exact tracked.sim.sound
    case safe => exact tracked.sim.safe
    case indexed => exact tracked.sim.indexed
    case peers =>
      intro q hq
      rw [show (t.peers q).node = _ from congrFun hnodes q, Function.update_of_ne (hother hq)]
      refine (tracked.sim.peers q hq).mono fun T v ⟨step, hstep, hcounts⟩ ↦ ?_
      exact ⟨step, List.mem_cons_of_mem _ hstep, hcounts⟩
    case letters =>
      intro m hm l hl hs
      rw [hnet] at hm
      rcases List.mem_append.mp hm with hm | hm
      · exact tracked.sim.letters m hm l hl hs
      · exact absurd ((hw.posted m hm l hl).1 ▸ hs) member

/-- The records at the start: the empty log, and a leader where a cluster has one peer. -/
def Records.initial (cfg : Config) (x : Uid) : Records :=
  Raft.State.init [getEmptyEntry]
    (if (cfg.members x).length = 1 then (cfg.members x).head? else none)

private theorem Tracked.initial (cfg : Config) (D : Prop) (x : Uid) :
    Tracked cfg D x [] (World.initial cfg) (Records.initial cfg x) := by
  have hroot : ∀ e ∈ [getEmptyEntry], e.term = 0 := by
    intro e he
    rw [List.mem_singleton.mp he]
    rfl
  refine Tracked.of_sim (List.forall_mem_nil _) (fun _ _ hs ↦ nomatch hs) ?_ ?_
  · intro _ q _
    rw [show (World.initial cfg).peers q = configured cfg q from rfl, (fresh_configured cfg q).node,
      (fresh_configured cfg q).workflow]
    exact DcrWorkflow.SameReads.refl _
  constructor
  case sound => exact Raft.Sound.init hroot _
  case safe => exact fun _ ↦ Raft.Safe.init hroot (List.cons_ne_nil _ _) _
  case indexed =>
    intro T i e he
    change (if T = 0 then [getEmptyEntry] else [])[i]? = some e at he
    split at he
    · obtain ⟨hi, rfl⟩ := List.getElem?_eq_some_iff.mp he
      obtain rfl : i = 0 := Nat.lt_one_iff.mp hi
      rfl
    · cases he
  case letters => exact fun _ hm ↦ nomatch hm
  case peers =>
    intro q hq
    have hnode := (fresh_configured cfg q).node
    rw [Config.clusterOf_of_mem hq] at hnode
    rw [show (World.initial cfg).peers q = configured cfg q from rfl, hnode]
    have hin : q ∈ cfg.members x := List.mem_toFinset.mp hq
    constructor
    case term | log | commit => rfl
    case role =>
      change (if (if (cfg.members x).length = 1 then (cfg.members x).head? else none) = some q
        then Raft.Role.leader else .follower) = _
      by_cases hone : (cfg.members x).length = 1
      · obtain ⟨p, hp⟩ := List.length_eq_one_iff.mp hone
        rw [hp, List.mem_singleton] at hin
        simp [hp, hin, Role.raft]
      · simp [hone, Role.raft]
    case free => exact fun _ _ ↦ rfl
    case votes =>
      intro hr
      dsimp only at hr
      split at hr <;> cases hr
    case acked => exact fun _ ↦ Nat.le_refl _
    case alone =>
      intro hone
      rw [Config.card_cluster] at hone
      exact ⟨rfl, if_pos hone⟩

end

/-- Runs whose steps meet more are runs whose steps meet less. -/
theorem Run.mono {cfg : Config} {C C' : Hist → World → Action → Prop}
    (hC : ∀ h s a, C h s a → C' h s a) {h : Hist} {s : World} (run : Run cfg C h s) :
    Run cfg C' h s := by
  induction run with
  | initial => exact .initial
  | step _ meets next ih => exact ih.step (hC _ _ _ meets) next

/-- Peers stay in their places, and what was delivered had been sent. -/
theorem Run.wired {cfg : Config} {h : Hist} {s : World} (run : Run cfg (ElectsFairly cfg) h s) :
    Wired cfg s ∧ ∀ step ∈ h, ∀ m, step.2.call.received = some m → m ∈ s.net := by
  induction run with
  | initial => exact ⟨Wired.initial cfg, fun _ hs ↦ nomatch hs⟩
  | step _ meets next ih =>
    refine ⟨ih.1.step meets.1 next, fun step hstep m hm ↦ ?_⟩
    obtain ⟨allowed, e, -, -, hnet, -⟩ := World.step_cases next
    rw [hnet]
    refine List.mem_append_left _ ?_
    rcases List.mem_cons.mp hstep with rfl | hstep
    · exact allowed.received m hm
    · exact ih.2 step hstep m hm

/-- Every run with fair elections has records for every cluster. -/
theorem Run.tracked {cfg : Config} {D : Prop} {h : Hist} {s : World}
    (run : Run cfg (fun h s a ↦ ElectsFairly cfg h s a ∧ (D → CommitsConfirmed h s a)) h s)
    (x : Uid) : ∃ g, Tracked cfg D x h s g := by
  induction run with
  | initial => exact ⟨_, Tracked.initial cfg D x⟩
  | step run meets next ih =>
    obtain ⟨g, tracked⟩ := ih
    obtain ⟨wired, delivered⟩ := (run.mono fun _ _ _ hm ↦ hm.1).wired
    obtain ⟨g', -, tracked', -⟩ := tracked.step wired delivered meets.1 meets.2 next
    exact ⟨g', tracked'⟩

/-- Over a run with fair elections each term of a cluster elects one member at most. -/
theorem Run.elected {cfg : Config} {h : Hist} {s : World} (run : Run cfg (ElectsFairly cfg) h s)
    (x : Uid) : ∃ elected : Nat → Option Uid, ∀ s' ∈ states h s, ∀ p ∈ cfg.cluster x,
      (s'.peers p).role = .leader → elected (s'.peers p).term = some p := by
  have run' : Run cfg (fun h s a ↦ ElectsFairly cfg h s a ∧ (False → CommitsConfirmed h s a)) h s :=
    run.mono fun _ _ _ hfair ↦ ⟨hfair, False.elim⟩
  obtain ⟨g, tracked⟩ := run'.tracked x
  exact ⟨g.elected, tracked.led⟩

/-- What holds of prefixes and keeps holding, and holds of what leaders append, holds of all logs
of a cluster. -/
theorem Run.logs {cfg : Config} {C : Hist → World → Action → Prop}
    (fair : ∀ h s a, C h s a → ElectsFairly cfg h s a) {x : Uid}
    {Φ : Hist → World → List Entry → Prop} (nil : ∀ h s, Φ h s [])
    (mono : ∀ h s l l', l' <+: l → Φ h s l → Φ h s l')
    (root : Φ [] (World.initial cfg) [getEmptyEntry])
    (later : ∀ {h s a t}, Run cfg C h s → C h s a → s.step cfg a = some t → ∀ l, Φ h s l →
      Φ ((s, a) :: h) t l)
    (appended : ∀ {h s a t}, Run cfg C h s → C h s a → s.step cfg a = some t →
      a.peer ∈ cfg.cluster x → ∀ e, Appended s a t e → Φ h s (s.peers a.peer).log →
        Φ ((s, a) :: h) t ((s.peers a.peer).log ++ [e]))
    {h : Hist} {s : World} (run : Run cfg C h s) {p : Uid} (hp : p ∈ cfg.cluster x) :
    Φ h s (s.peers p).log := by
  have lift {h : Hist} {s : World} {g : Records} (tracked : Tracked cfg False x h s g)
      (ht : ∀ T, Φ h s (g.tlog T)) {q : Uid} (hq : q ∈ cfg.cluster x) : Φ h s (s.peers q).log := by
    have hlog := tracked.sim.sound.of_tlog (nil h s) (mono h s) ht q
    rwa [(tracked.sim.peers q hq).log] at hlog
  have invariant : ∃ g, Tracked cfg False x h s g ∧ ∀ T, Φ h s (g.tlog T) := by
    clear hp
    induction run with
    | initial =>
      refine ⟨_, Tracked.initial cfg False x, fun T ↦ ?_⟩
      change Φ _ _ (if T = 0 then [getEmptyEntry] else [])
      split
      · exact root
      · exact nil _ _
    | step run meets next ih =>
      obtain ⟨g, tracked, ht⟩ := ih
      obtain ⟨wired, delivered⟩ := (run.mono fair).wired
      obtain ⟨g', -, tracked', grown⟩ :=
        tracked.step wired delivered (fair _ _ _ meets) False.elim next
      refine ⟨g', tracked', grown _ (nil _ _) (mono _ _) (fun T ↦ later run meets next _ (ht T)) ?_⟩
      exact fun member e he ↦ appended run meets next member e he (lift tracked ht member)
  obtain ⟨g, tracked, ht⟩ := invariant
  exact lift tracked ht hp

end TrustedDcr.System
