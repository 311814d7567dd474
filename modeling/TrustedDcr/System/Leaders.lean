import TrustedDcr.Enclave.Following
import TrustedDcr.System.Simulation

/-!
# Followers and their leaders

`recv_append_req` never writes `leader`: a follower names the peer whose letter
brought it into the term, which need not be the one that leads the term and sends it
requests.
-/

namespace TrustedDcr.System
open TrustedDcr.Msg TrustedDcr.Dcr TrustedDcr.Enclave TrustedDcr.Theory

/-! ### One call -/

namespace Call

/-- The letter with which a call brings the peer into a later term. -/
def enters (c : Call) (p : Peer) : Option Letter := c.received.bind p.entersBy

/-- The leader that a call maps to the own event as a failed response names it. -/
def renames (c : Call) (p : Peer) : Option Uid := c.received.bind p.renames

/-- The source of the request to append that a call processes. -/
def processes (c : Call) (p : Peer) : Option Uid :=
  match c with
  | .recv (.appendReq req) => if p.processes req then some req.source else none
  | _ => none

private theorem processes_eq_some {c : Call} {p : Peer} {leader : Uid} :
    c.processes p = some leader ↔
    ∃ req, c = .recv (.appendReq req) ∧ p.processes req = true ∧ req.source = leader := by
  unfold processes
  split
  · simp
  · next other =>
    refine iff_of_false (fun h ↦ nomatch h) ?_
    rintro ⟨req, rfl, -⟩
    exact other req rfl

/-- A letter brings its term in exactly if it is addressed to the peer and later. -/
theorem enters_of_letter {m : Message} {l : Letter} (letter : m.letter = some l) (p : Peer) :
    (Call.recv m).enters p = if l.target = p.id ∧ p.term < l.term then some l else none := by
  have enters : (Call.recv m).enters p =
      (some l).filter fun l ↦ uidsEqual l.target p.id && decide (p.term < l.term) :=
    congrArg (Option.filter _) letter
  rw [enters, Option.filter_some]
  simp

/-- The letter is the received message's, and of a later term. -/
theorem enters_eq_some {c : Call} {p : Peer} {l : Letter} (h : c.enters p = some l) :
    (∃ m, c.received = some m ∧ m.letter = some l) ∧ p.term < l.term := by
  obtain ⟨m, received, letter⟩ := Option.bind_eq_some_iff.mp h
  obtain ⟨letter, later⟩ := Option.filter_eq_some_iff.mp letter
  rw [Bool.and_eq_true, decide_eq_true_eq] at later
  exact ⟨⟨m, received, letter⟩, later.2⟩

private theorem renames_eq_some {c : Call} {p : Peer} {leader : Uid}
    (h : c.renames p = some leader) : ∃ rsp, c = .recv (.logRsp rsp) := by
  cases c with
  | recv msg =>
    cases msg with
    | logRsp rsp => exact ⟨rsp, rfl⟩
    | _ => exact nomatch h
  | _ => exact nomatch h

/-- The source of the response that a call counts towards a poll. -/
def pollVote (c : Call) (p : Peer) : Option Uid :=
  match c with
  | .recv (.pollRsp rsp) => if p.countsPoll rsp then some rsp.source else none
  | _ => none

/-- The votes counted towards a poll are those of the responses counted. -/
theorem pollVote_eq_some {c : Call} {p : Peer} {source : Uid} : c.pollVote p = some source ↔
    ∃ rsp, c = .recv (.pollRsp rsp) ∧ p.countsPoll rsp = true ∧ rsp.source = source := by
  unfold pollVote
  split
  · simp
  · next other =>
    refine iff_of_false (fun h ↦ nomatch h) ?_
    rintro ⟨rsp, rfl, -⟩
    exact other rsp rfl

/-- The number of votes it brings. -/
def pollVotes (c : Call) (p : Peer) : Nat := (c.pollVote p).toList.length

/-- What the call makes of a peer that follows after it. -/
def Keeps (c : Call) (p q : Peer) : Prop :=
  q.role = .follower →
    match c.enters p with
    | some l => q.term = l.term ∧ q.pollVotes = 1 + c.pollVotes p ∧ q.Names l.source l.source
    | none => p.role = .follower ∧ q.term = p.term ∧ q.pollVotes = p.pollVotes + c.pollVotes p ∧
      ∀ leader mapped, p.Names leader mapped → q.Names leader ((c.renames p).getD mapped)

namespace Keeps

variable {c : Call} {s t : EnclaveState}

/-- Without a letter of a later term and a failed response. -/
theorem of_follows (enters : c.enters s.self = none) (renames : c.renames s.self = none)
    (h : Follows { s with self := { s.self with pollVotes := s.self.pollVotes + c.pollVotes s.self } }
      t) : c.Keeps s.self t.self := by
  intro follows
  rw [enters, renames]
  have stays := h follows
  exact ⟨stays.role, stays.term, stays.pollVotes, stays.names⟩

/-- With a letter. -/
theorem of_heeds {m : Message} {l : Letter} (letter : m.letter = some l)
    (h : Heeds l ((Call.recv m).pollVotes s.self) s t) : (Call.recv m).Keeps s.self t.self := by
  have renames : (Call.recv m).renames s.self = none := by
    cases m with
    | logRsp => exact nomatch letter
    | _ => rfl
  have enters := enters_of_letter letter s.self
  by_cases later : l.target = s.self.id ∧ s.self.term < l.term
  · intro follows
    rw [enters, if_pos later]
    exact h.entered later.1 later.2 follows
  · exact of_follows (enters.trans (if_neg later)) renames (h.kept later)

/-- A peer that does not follow is not made to without a letter. -/
theorem of_goes {o : Oracle} (letterless : ∀ m, c.received = some m → m.letter = none)
    (busy : s.self.role ≠ .follower) (goes : Goes c.received o s.self s t) :
    c.Keeps s.self t.self := fun follows ↦
  absurd follows (waits_of_moves (v := s.view) letterless busy goes.moves)

end Keeps

/-- Every call treats the names so. -/
theorem keeps_body (o : Oracle) (c : Call) (s : EnclaveState) :
    wp (c.body o) (fun _ t ↦ c.Keeps s.self t.self) s := by
  have letterless (hc : ∀ m, c.received = some m → m.letter = none)
      (hf : s.self.role = .follower → wp (c.body o) (fun _ t ↦ c.Keeps s.self t.self) s) :
      wp (c.body o) (fun _ t ↦ c.Keeps s.self t.self) s := by
    by_cases follows : s.self.role = .follower
    · exact hf follows
    · exact wp_mono (goes_body o c s) fun _ _ goes ↦ .of_goes hc follows goes
  cases c with
  | setTime ticks =>
    refine letterless (fun _ h ↦ nomatch h) fun follows ↦ ?_
    exact wp_mono (follows_setTime follows) fun _ _ h ↦ .of_follows rfl rfl h
  | execute event => exact wp_mono (follows_execute event s) fun _ _ h ↦ .of_follows rfl rfl h
  | getHistory => exact wp_mono (follows_getHistory s) fun _ _ h ↦ .of_follows rfl rfl h
  | recv msg =>
    cases msg with
    | commandReq req =>
      refine letterless (fun _ h ↦ Option.some.inj h ▸ rfl) fun follows ↦ ?_
      exact wp_mono (follows_recvCommandReq follows) fun _ _ h ↦ .of_follows rfl rfl h
    | commandRsp rsp =>
      refine letterless (fun _ h ↦ Option.some.inj h ▸ rfl) fun follows ↦ ?_
      exact wp_mono (follows_recvCommandRsp follows) fun _ _ h ↦ .of_follows rfl rfl h
    | logReq req =>
      refine letterless (fun _ h ↦ Option.some.inj h ▸ rfl) fun follows ↦ ?_
      exact wp_mono (follows_recvLogReq follows) fun _ _ h ↦ .of_follows rfl rfl h
    | logRsp rsp =>
      refine wp_mono (recvLogRsp_names rsp s) ?_
      rintro _ t ⟨same, names⟩ follows
      simp only [Prod.mk.injEq] at same
      exact ⟨same.1.symm.trans follows, same.2.1, same.2.2, names⟩
    | appendReq req => exact wp_mono (heeds_recvAppendReq req s) fun _ _ h ↦ .of_heeds rfl h.1
    | appendRsp rsp => exact wp_mono (heeds_recvAppendRsp rsp s) fun _ _ h ↦ .of_heeds rfl h
    | pollReq req => exact wp_mono (heeds_recvPollReq req s) fun _ _ h ↦ .of_heeds rfl h
    | pollRsp rsp =>
      have votes : (Call.recv (.pollRsp rsp)).pollVotes s.self = (s.self.countsPoll rsp).toNat := by
        unfold pollVotes pollVote
        cases counted : s.self.countsPoll rsp <;> simp [counted]
      exact wp_mono (heeds_recvPollRsp rsp s) fun _ _ h ↦ .of_heeds rfl (votes ▸ h.1)
    | electionReq req => exact wp_mono (heeds_recvElectionReq req s) fun _ _ h ↦ .of_heeds rfl h
    | electionRsp rsp => exact wp_mono (heeds_recvElectionRsp rsp s) fun _ _ h ↦ .of_heeds rfl h

/-- A peer that has processed a request follows. -/
theorem follows_of_processes (o : Oracle) {c : Call} {s : EnclaveState} {leader : Uid}
    (processed : c.processes s.self = some leader) :
    wp (c.body o) (fun _ t ↦ t.self.role = .follower) s := by
  obtain ⟨req, rfl, processes, -⟩ := processes_eq_some.mp processed
  exact wp_mono (heeds_recvAppendReq req s) fun _ _ h ↦ h.2 processes

/-- A failed response leaves role and term alone. -/
theorem role_of_renames (o : Oracle) {c : Call} {s : EnclaveState} {leader : Uid}
    (renamed : c.renames s.self = some leader) :
    wp (c.body o) (fun _ t ↦ t.self.role = s.self.role) s := by
  obtain ⟨rsp, rfl⟩ := renames_eq_some renamed
  exact wp_mono (recvLogRsp_names rsp s) fun _ _ h ↦ congrArg Prod.fst h.1

end Call

/-! ### Over a run -/

/-- The sources whose letters and responses have given the peer its names, of the leader it
follows and of the one it has mapped to its own event. -/
def named (p : Uid) : Hist → World → Uid × Uid
  | [], s => ((s.peers p).leader, (s.peers p).leader)
  | (s, a) :: h, _ =>
    if a.peer = p then
      match a.call.enters (s.peers p) with
      | some l => (l.source, l.source)
      | none => ((named p h s).1, (a.call.renames (s.peers p)).getD (named p h s).2)
    else named p h s

/-- The peers whose requests to append a follower has processed in its term. -/
def heard (p : Uid) : Hist → World → List Uid
  | [], _ => []
  | (s, a) :: h, t =>
    (if a.peer = p then (a.call.processes (s.peers p)).toList else []) ++
      if (t.peers p).role = .follower ∧ (t.peers p).term = (s.peers p).term then heard p h s else []

/-- A peer names as its leader whom it has heard in its term. -/
def KnowsLeaders (h : Hist) (s : World) : Prop :=
  ∀ p, ∀ leader ∈ heard p h s, (s.peers p).Names leader leader

/-- A request of the term the follower is in comes from the peer that has given it its names, and
a failed response of its own cluster names whom it has heard. -/
def HearsLeaders (h : Hist) (s : World) (a : Action) : Prop :=
  (∀ leader ∈ a.call.processes (s.peers a.peer), a.call.enters (s.peers a.peer) = none →
    named a.peer h s = (leader, leader)) ∧
  ∀ leader ∈ a.call.renames (s.peers a.peer), ∀ l ∈ heard a.peer h s, l = leader

section
variable {cfg : Config} {C : Hist → World → Action → Prop} {h : Hist} {s t : World} {a : Action}
  {p : Uid}

/-- A peer that follows after a step has kept term, names and votes, up to what the call counts. -/
theorem World.step_keeps (next : s.step cfg a = some t) :
    a.call.Keeps (s.peers a.peer) (t.peers a.peer) := by
  obtain ⟨-, e, renames, hpeers, -⟩ :=
    World.step_of_wp next (Call.keeps_body a.oracle a.call (s.enclave a.peer))
  rw [hpeers, Function.update_self]
  exact renames

/-- A response to a poll leaves a follower without a majority. -/
theorem World.step_polled (next : s.step cfg a = some t) {rsp : PollRsp}
    (received : a.call = .recv (.pollRsp rsp)) (addressed : rsp.target = (s.peers a.peer).id)
    (follows : (t.peers a.peer).role = .follower) :
    (t.peers a.peer).pollVotes ≤ (t.peers a.peer).clusterSize / 2 := by
  have call : wp (a.call.body a.oracle) (fun _ e ↦ e.self.role = .follower →
      e.self.pollVotes ≤ e.self.clusterSize / 2) (s.enclave a.peer) := by
    rw [received]
    exact wp_mono (heeds_recvPollRsp rsp (s.enclave a.peer)) fun _ _ h ↦ h.2 addressed
  obtain ⟨-, e, few, hpeers, -⟩ := World.step_of_wp next call
  rw [hpeers, Function.update_self] at follows ⊢
  exact few follows

private theorem World.step_processes (next : s.step cfg a = some t) {leader : Uid}
    (processed : a.call.processes (s.peers a.peer) = some leader) :
    (t.peers a.peer).role = .follower := by
  obtain ⟨-, e, follows, hpeers, -⟩ := World.step_of_wp next
    (Call.follows_of_processes (s := s.enclave a.peer) a.oracle processed)
  rw [hpeers, Function.update_self]
  exact follows

private theorem World.step_role_of_renames (next : s.step cfg a = some t) {leader : Uid}
    (renamed : a.call.renames (s.peers a.peer) = some leader) :
    (t.peers a.peer).role = (s.peers a.peer).role := by
  obtain ⟨-, e, role, hpeers, -⟩ := World.step_of_wp next
    (Call.role_of_renames (s := s.enclave a.peer) a.oracle renamed)
  rw [hpeers, Function.update_self]
  exact role

/-- A step leaves the other peers alone. -/
theorem World.step_other (next : s.step cfg a = some t) (other : a.peer ≠ p) :
    t.peers p = s.peers p := by
  obtain ⟨-, e, -, hpeers, -⟩ := World.step_cases next
  rw [hpeers, Function.update_of_ne (Ne.symm other)]

/-- A configured follower names its leader in both places, and has its own vote alone. -/
theorem names_configured (cfg : Config) (id : Uid)
    (follows : (configured cfg id).role = .follower) : (configured cfg id).pollVotes = 1 ∧
      (configured cfg id).Names (configured cfg id).leader (configured cfg id).leader := by
  have call : wp (configureEnclave silent id cfg.workflow cfg.peerMap) (fun _ t ↦
      t.self.role = .follower →
        t.self.pollVotes = 1 ∧ t.self.Names t.self.leader t.self.leader)
      ⟨Peer.zero, [], [], []⟩ := by
    unfold configureEnclave
    refine wp_bind_modifySelf fun t ht ↦ ?_
    rw [wp_bind, wp_getSelf]
    refine wp_bind.mpr (wp_mono (Q := fun _ _ ↦ True) (fun _ _ _ ↦ trivial) fun leader u _ ↦ ?_)
    refine wp_bind_modifySelf fun v hv ↦ ?_
    rw [wp_ite]
    constructor
    · intro _
      refine wp_mono (becomeLeader_spec v) ?_
      rintro _ t ⟨w, _, -, rfl, lead⟩ follows
      have hrole : t.self.role = .leader := congrArg Node.role lead.node
      exact nomatch hrole.symm.trans follows
    · intro _
      rw [wp_pure, hv]
      exact fun _ ↦ ⟨rfl, rfl, Std.ExtTreeMap.getElem?_insert_self⟩
  obtain ⟨_, t, hrun, -⟩ := runs_configureEnclave cfg id
  have hself : configured cfg id = t.self := by
    unfold configured
    rw [hrun]
  rw [hself] at follows ⊢
  exact call _ t hrun follows

/-- The names of a follower are those given to it. -/
theorem Run.named (run : Run cfg C h s) (follows : (s.peers p).role = .follower) :
    (s.peers p).Names (named p h s).1 (named p h s).2 := by
  induction run with
  | initial => exact (names_configured cfg p follows).2
  | @step h s t a run meets next ih =>
    unfold System.named
    by_cases own : a.peer = p
    · subst own
      rw [if_pos rfl]
      have renames := World.step_keeps next follows
      cases enters : a.call.enters (s.peers a.peer) with
      | some l =>
        rw [enters] at renames
        exact renames.2.2
      | none =>
        rw [enters] at renames
        obtain ⟨before, -, -, names⟩ := renames
        exact names _ _ (ih before)
    · rw [if_neg own]
      rw [World.step_other next own] at follows ⊢
      exact ih follows

/-- A peer that has heard a leader follows. -/
theorem Run.follows_of_heard (run : Run cfg C h s) {leader : Uid} (hl : leader ∈ heard p h s) :
    (s.peers p).role = .follower := by
  cases run with
  | initial => exact nomatch hl
  | @step h s t a run meets next =>
    unfold heard at hl
    rcases List.mem_append.mp hl with hl | hl
    · by_cases own : a.peer = p
      · subst own
        rw [if_pos rfl, Option.mem_toList] at hl
        exact World.step_processes next hl
      · rw [if_neg own] at hl
        exact nomatch hl
    · split at hl
      · next still => exact still.1
      · exact nomatch hl

/-- What a peer has heard after a step of its own. -/
theorem mem_heard_self {leader : Uid} : leader ∈ heard a.peer ((s, a) :: h) t ↔
    a.call.processes (s.peers a.peer) = some leader ∨
      ((t.peers a.peer).role = .follower ∧ (t.peers a.peer).term = (s.peers a.peer).term) ∧
        leader ∈ heard a.peer h s := by
  rw [heard, List.mem_append, if_pos rfl, Option.mem_toList]
  refine or_congr_right ?_
  split
  · next still => exact (and_iff_right still).symm
  · next moved => exact iff_of_false (fun hl ↦ nomatch hl) fun hl ↦ moved hl.1

/-- What has been heard stays known exactly if the step's message agrees with it. -/
theorem Run.knowsLeaders_step_iff (run : Run cfg C h s) (next : s.step cfg a = some t)
    (knows : KnowsLeaders h s) : KnowsLeaders ((s, a) :: h) t ↔ HearsLeaders h s a := by
  have renames := World.step_keeps next
  unfold Call.Keeps at renames
  constructor
  · intro knows'
    constructor
    · intro leader processed enters
      have follows := World.step_processes next processed
      have same := knows' _ _ (mem_heard_self.mpr (Or.inl processed))
      obtain ⟨req, hcall, -⟩ := Call.processes_eq_some.mp processed
      have kept : a.call.renames (s.peers a.peer) = none := by
        rw [hcall]
        rfl
      rw [enters, kept] at renames
      obtain ⟨before, -, -, names⟩ := renames follows
      obtain ⟨hfirst, hsecond⟩ := same.unique (names _ _ (run.named before))
      exact Prod.ext hfirst.symm hsecond.symm
    · intro leader renamed l hl
      have before := run.follows_of_heard hl
      have follows := (World.step_role_of_renames next renamed).trans before
      obtain ⟨rsp, hcall⟩ := Call.renames_eq_some renamed
      have enters : a.call.enters (s.peers a.peer) = none := by
        rw [hcall]
        rfl
      rw [enters, renamed] at renames
      obtain ⟨-, term, -, names⟩ := renames follows
      have same := knows' _ _ (mem_heard_self.mpr (Or.inr ⟨⟨follows, term⟩, hl⟩))
      exact (same.unique (names l l (knows _ _ hl))).2
  · intro hears p leader hl
    by_cases own : a.peer = p
    · subst own
      rcases mem_heard_self.mp hl with processed | ⟨⟨follows, term⟩, hl⟩
      · have follows := World.step_processes next processed
        obtain ⟨req, hcall, -, hsource⟩ := Call.processes_eq_some.mp processed
        cases enters : a.call.enters (s.peers a.peer) with
        | some l =>
          rw [enters] at renames
          have hsame : l.source = leader := by
            obtain ⟨⟨m, received, letter⟩, -⟩ := Call.enters_eq_some enters
            rw [hcall] at received
            obtain rfl := Option.some.inj received
            exact (congrArg Letter.source (Option.some.inj letter)).symm.trans hsource
          exact hsame ▸ (renames follows).2.2
        | none =>
          rw [enters, hcall] at renames
          obtain ⟨before, -, -, names⟩ := renames follows
          have given := run.named before
          rw [hears.1 leader processed (hcall ▸ enters)] at given
          exact names _ _ given
      · have renames := renames follows
        cases enters : a.call.enters (s.peers a.peer) with
        | some l =>
          rw [enters] at renames
          have later := (Call.enters_eq_some enters).2
          omega
        | none =>
          rw [enters] at renames
          have known := renames.2.2.2 leader leader (knows _ _ hl)
          cases renamed : a.call.renames (s.peers a.peer) with
          | none => rwa [renamed] at known
          | some named =>
            rw [renamed, ← hears.2 named renamed leader hl] at known
            exact known
    · rw [heard, if_neg own, List.nil_append] at hl
      rw [World.step_other next own] at hl ⊢
      split at hl
      · exact knows _ _ hl
      · exact nomatch hl

/-- In a run, every follower names as its leader whom it has heard in its term, exactly if every
request of the own term comes from the peer whose message has named the leader, and every
failed response of the own cluster agrees with the requests heard.
`src/enclave/enclave.cpp:11–36,670–730`, `src/enclave/raft.cpp:32–39`. -/
theorem knows_leaders_iff (run : Run cfg C h s) :
    EveryState KnowsLeaders h s ↔ EveryAction HearsLeaders h :=
  run.everyState_iff (fun _ _ hl ↦ nomatch hl)
    fun _ _ _ _ run next knows ↦ run.knowsLeaders_step_iff next knows

end

instance (h : Hist) (s : World) (a : Action) : Decidable (HearsLeaders h s a) := by
  unfold HearsLeaders
  infer_instance

/-- A peer that the election request of the first of four has brought into the term knows it as
its leader once it has its heartbeat. -/
theorem voter_knows_leader : ∃ h s, Run quartet HearsLeaders h s ∧
    heard ⟨0, 13⟩ h s = [⟨0, 11⟩] ∧ EveryState KnowsLeaders h s := by
  obtain ⟨h, s, run, hheard⟩ := exists_run_of_replay quartet HearsLeaders
    [.tick ⟨0, 11⟩ 1 emptyUid, .tick ⟨0, 11⟩ 10000 emptyUid, .tick ⟨0, 12⟩ 1 emptyUid,
      .tick ⟨0, 13⟩ 1 emptyUid, .deliver ⟨0, 12⟩ 0, .deliver ⟨0, 13⟩ 1, .deliver ⟨0, 11⟩ 3,
      .deliver ⟨0, 11⟩ 4, .deliver ⟨0, 12⟩ 5, .deliver ⟨0, 13⟩ 6, .deliver ⟨0, 11⟩ 8,
      .deliver ⟨0, 11⟩ 9, .deliver ⟨0, 13⟩ 11]
    (fun h s ↦ heard ⟨0, 13⟩ h s = [⟨0, 11⟩]) (by decide +kernel)
  exact ⟨h, s, run, hheard, (knows_leaders_iff run).mpr run.everyAction⟩

/-- Where the poll of the third peer has brought the fourth into the term first, the fourth takes
the third for its leader, whatever it hears from the first. -/
theorem not_knows_leaders : ¬ ∀ (cfg : Config) (h : Hist) (s : World),
    Run cfg anyStep h s → KnowsLeaders h s := by
  intro claim
  obtain ⟨h, s, run, hheard, hleader⟩ := exists_run_of_replay quartet anyStep
    [.tick ⟨0, 11⟩ 1 emptyUid, .tick ⟨0, 11⟩ 10000 emptyUid, .tick ⟨0, 12⟩ 1 emptyUid,
      .tick ⟨0, 13⟩ 1 emptyUid, .deliver ⟨0, 12⟩ 0, .deliver ⟨0, 13⟩ 1, .deliver ⟨0, 11⟩ 3,
      .deliver ⟨0, 11⟩ 4, .deliver ⟨0, 12⟩ 5, .deliver ⟨0, 13⟩ 6, .deliver ⟨0, 11⟩ 8,
      .deliver ⟨0, 11⟩ 9, .tick ⟨0, 13⟩ 10000 emptyUid, .deliver ⟨0, 14⟩ 15, .deliver ⟨0, 14⟩ 12]
    (fun h s ↦ heard ⟨0, 14⟩ h s = [⟨0, 11⟩] ∧ (s.peers ⟨0, 14⟩).leader = ⟨0, 13⟩)
    (by decide +kernel)
  have knows := claim quartet h s run ⟨0, 14⟩ ⟨0, 11⟩ (hheard ▸ List.mem_cons_self)
  exact absurd (hleader.symm.trans knows.1) (by decide)

end TrustedDcr.System
