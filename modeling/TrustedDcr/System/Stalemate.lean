import TrustedDcr.System.Stability

/-!
# Elections that cannot be decided

Candidates answer no polls, and grant none. So where one peer is left that follows, and
the one other peer is a candidate that is behind, the first never stands and the second
is never elected, however often they time out: the cluster has no leader again, unless
a vote or a grant from before arrives late.
-/

namespace TrustedDcr.Enclave
open TrustedDcr.Msg

/-- What an election changes first. -/
def Peer.station (p : Peer) : Role × Nat := (p.role, p.term)

/-- The peer once it has entered the term of a letter. -/
def Peer.entered (p : Peer) (l : Letter) : Peer :=
  { p.updateTerm l.term l.source with lockedEntryIndex := -1, role := .follower }

/-- The log is ahead of one that ends with an entry of this term and index. -/
def Peer.outruns (p : Peer) (term index : Nat) : Bool :=
  match p.log.getLast? with
  | some last => !logNotAhead last term index
  | none => false

end TrustedDcr.Enclave

namespace TrustedDcr.System
open TrustedDcr.Msg TrustedDcr.Dcr TrustedDcr.Enclave TrustedDcr.Theory

/-! ### Calls of a follower and of a candidate -/

section
variable {o : Oracle} {s : EnclaveState} {m : Message} {l : Letter}

private theorem station_of_posture {t : EnclaveState} (h : Same Peer.posture s t) :
    Same Peer.station s t := by
  simp only [Same, Peer.posture, Prod.mk.injEq] at h
  exact Prod.ext h.1 h.2.1

/-- A letter of a later term is treated as in that term. -/
theorem dispatch_entered (letter : m.letter = some l) (addressed : l.target = s.self.id)
    (later : s.self.term < l.term) :
    dispatch o m s = dispatch o m { s with self := s.self.entered l } := by
  have enters : verifyMacAndOwnTerm true l.target l.source l.term s =
      .ok (true, { s with self := s.self.entered l }) := by
    unfold verifyMacAndOwnTerm
    rw [if_neg (by decide), getSelf_bind, if_neg (by simp [addressed]), if_pos later]
    rfl
  have stays : verifyMacAndOwnTerm true l.target l.source l.term
      { s with self := s.self.entered l } = .ok (true, { s with self := s.self.entered l }) :=
    verifyMacAndOwnTerm_of_le _ addressed (Nat.le_refl _)
  have same {f : Bool → Ecall Unit} : (verifyMacAndOwnTerm true l.target l.source l.term >>= f) s =
      (verifyMacAndOwnTerm true l.target l.source l.term >>= f)
        { s with self := s.self.entered l } := by
    rw [bind_of_ok enters, bind_of_ok stays]
  cases m with
  | commandReq | commandRsp | logReq | logRsp => exact absurd letter (by simp [Message.letter])
  | appendReq | appendRsp | pollReq | pollRsp | electionReq | electionRsp =>
    obtain rfl := Option.some.inj letter
    exact same

/-- A letter of no later term leaves a follower that no poll is granted to in its place. -/
theorem station_dispatch (letter : m.letter = some l) (follows : s.self.role = .follower)
    (current : l.target = s.self.id → l.term ≤ s.self.term)
    (refused : ∀ rsp, m = .pollRsp rsp → rsp.target = s.self.id → rsp.success = false)
    (few : s.self.pollVotes ≤ s.self.clusterSize / 2) :
    wp (dispatch o m) (fun _ t ↦ Same Peer.station s t) s := by
  have keep {x : Ecall Unit} (hx : wp x (fun _ t ↦ Same Peer.posture s t) s) :
      wp x (fun _ t ↦ Same Peer.station s t) s := wp_mono hx fun _ _ ↦ station_of_posture
  cases m with
  | commandReq | commandRsp | logReq | logRsp => exact absurd letter (by simp [Message.letter])
  | appendReq req =>
    obtain rfl := Option.some.inj letter
    exact wp_mono (rests_recvAppendReq follows current) fun _ _ h ↦ Prod.ext h.role h.term
  | appendRsp rsp =>
    obtain rfl := Option.some.inj letter
    exact keep (posture_recvAppendRsp follows current)
  | pollReq req =>
    obtain rfl := Option.some.inj letter
    exact keep (posture_recvPollReq current)
  | pollRsp rsp =>
    obtain rfl := Option.some.inj letter
    exact keep (posture_recvPollRsp follows current (refused rsp rfl) few)
  | electionReq req =>
    obtain rfl := Option.some.inj letter
    exact keep (posture_recvElectionReq current)
  | electionRsp rsp =>
    obtain rfl := Option.some.inj letter
    exact keep (posture_recvElectionRsp follows current)

/-- A follower that times out polls, and goes on following. -/
theorem station_setTime {ticks : UInt64} (follows : s.self.role = .follower) :
    wp (setTime o ticks) (fun _ t ↦ Same Peer.station s t) s := by
  have timers : Along (Same Peer.station) (updateTimeout o) := by
    refine same_modifySelf _ fun p ↦ ?_
    split <;> simp [Peer.station]
  unfold setTime
  rw [wp_bind, wp_getSelf]
  refine wp_bind_modifySelf fun t ht ↦ ?_
  have same : Same Peer.station s t := by
    rw [ht]
    rfl
  have role : t.self.role = .follower := (congrArg Prod.fst same).trans follows
  rw [wp_bind, wp_getSelf, wp_ite]
  refine ⟨fun _ ↦ ?_, fun _ ↦ wp_pure.mpr same⟩
  unfold timeout
  rw [wp_bind, wp_getSelf, if_neg (by simp [role]), wp_bind, wp_getSelf,
    if_neg (by simp [role]), wp_bind, wp_getSelf, if_pos role]
  refine wp_mono ((timers.bind fun _ ↦ same_startPoll _) t) fun _ _ h ↦ ?_
  exact IsTrans.trans _ _ _ same h

/-- A follower to whom no poll is granted goes on following, in its term or that of a letter. -/
theorem station_body {c : Call} (follows : s.self.role = .follower)
    (refused : ∀ rsp, c = .recv (.pollRsp rsp) → rsp.target = s.self.id → rsp.success = false)
    (few : s.self.pollVotes ≤ s.self.clusterSize / 2) (several : 2 ≤ s.self.clusterSize) :
    wp (c.body o) (fun _ t ↦ t.self.role = .follower ∧ (t.self.term = s.self.term ∨
      ∃ m l, c.received = some m ∧ m.letter = some l ∧ l.target = s.self.id ∧
        t.self.term = l.term)) s := by
  have stays {x : Ecall Unit} (hx : wp x (fun _ t ↦ Same Peer.station s t) s) :
      wp x (fun _ t ↦ t.self.role = .follower ∧ (t.self.term = s.self.term ∨
        ∃ m l, c.received = some m ∧ m.letter = some l ∧ l.target = s.self.id ∧
          t.self.term = l.term)) s :=
    wp_mono hx fun _ _ h ↦ ⟨(congrArg Prod.fst h).trans follows, Or.inl (congrArg Prod.snd h)⟩
  have keep {x : Ecall Unit} (hx : wp x (fun _ t ↦ Same Peer.posture s t) s) :=
    stays (wp_mono hx fun _ _ ↦ station_of_posture)
  cases c with
  | setTime ticks => exact stays (station_setTime follows)
  | execute event => exact keep (posture_execute event s)
  | getHistory => exact keep (posture_getHistory s)
  | recv m =>
    cases letter : m.letter with
    | none =>
      cases m with
      | commandReq req => exact keep (posture_recvCommandReq follows)
      | commandRsp rsp => exact keep (posture_recvCommandRsp follows)
      | logReq req => exact keep (posture_recvLogReq true req s)
      | logRsp rsp => exact keep (posture_recvLogRsp rsp s)
      | appendReq | appendRsp | pollReq | pollRsp | electionReq | electionRsp =>
        exact absurd letter (by simp [Message.letter])
    | some l =>
      by_cases enters : l.target = s.self.id ∧ s.self.term < l.term
      · change wp (dispatch o m) _ s
        unfold wp
        rw [dispatch_entered letter enters.1 enters.2]
        refine wp_mono (station_dispatch (s := { s with self := s.self.entered l }) letter rfl
          (fun _ ↦ Nat.le_refl _) ?_ ?_) fun _ t h ↦ ⟨congrArg Prod.fst h, Or.inr
            ⟨m, l, rfl, letter, enters.1, congrArg Prod.snd h⟩⟩
        · rintro rsp rfl target
          exact refused rsp rfl target
        · change 1 ≤ s.self.clusterSize / 2
          omega
      · refine stays (station_dispatch letter follows (fun addressed ↦ ?_) ?_ few)
        · exact Nat.not_lt.mp fun later ↦ enters ⟨addressed, later⟩
        · rintro rsp rfl target
          exact refused rsp rfl target

/-- A candidate that no letter of a later term reaches grants no poll. -/
theorem refuses_body {c : Call} (stands : s.self.role = .candidate)
    (current : ∀ m l, c.received = some m → m.letter = some l → l.target = s.self.id →
      l.term ≤ s.self.term) :
    wp (c.body o) (fun _ t ↦ ∃ ms, t.sent = s.sent ++ ms ∧ ∀ m ∈ ms, m.grantsPoll = false) s := by
  by_cases polled : ∃ req, c = .recv (.pollReq req)
  · obtain ⟨req, rfl⟩ := polled
    have same := posture_recvPollReq (s := s) (current _ _ rfl rfl)
    refine wp_mono (wp_and same (recvPollReq_grants req s)) fun _ t ht ↦ ?_
    obtain ⟨posture, -, ms, sent, grants⟩ := ht
    have term : t.self.term = s.self.term := congrArg (fun k ↦ k.2.1) posture
    refine ⟨ms, sent, fun m hm ↦ ?_⟩
    by_contra granted
    rcases (grants m hm (by simpa using granted)).2 with follows | later
    · exact absurd (stands.symm.trans follows) (by decide)
    · exact absurd later (Nat.not_lt.mpr (Nat.le_of_eq term))
  · refine wp_mono (Call.winds_body o (fun req h ↦ polled ⟨req, h⟩) s) fun _ t ht ↦ ?_
    obtain ⟨ms, sent, plain⟩ := ht.sent
    exact ⟨ms, sent, plain⟩

end

/-! ### The follower and the candidate -/

/-- No request that the follower `p` could still accept was sent to it, and `p` is ahead of every
request of `q` for its vote. -/
def Harmless (s : World) (p q : Uid) : Message → Prop
  | .appendReq req => req.target = p → req.term < (s.peers p).term
  | .electionReq req => req.target = p → req.source = q →
    (s.peers p).outruns req.lastTerm req.lastIndex = true
  | _ => True

instance (s : World) (p q : Uid) (m : Message) : Decidable (Harmless s p q m) := by
  unfold Harmless
  cases m <;> infer_instance

/-- In the cluster of `x`, `p` follows, and `q` is a candidate of the latest term, which is behind
`p` and has no majority. -/
structure Stalemate (cfg : Config) (x p q : Uid) (s : World) : Prop where
  follower : p ∈ cfg.cluster x
  candidate : q ∈ cfg.cluster x
  follows : (s.peers p).role = .follower
  stands : (s.peers q).role = .candidate
  unelected : (s.peers q).electionVotes ≤ (s.peers q).clusterSize / 2
  latest : ∀ r ∈ cfg.cluster x, (s.peers r).term ≤ (s.peers q).term
  behind : ∀ last ∈ (s.peers q).log.getLast?, (s.peers p).outruns last.term last.index = true
  harmless : ∀ m ∈ s.net, Harmless s p q m

instance (cfg : Config) (x p q : Uid) (s : World) : Decidable (Stalemate cfg x p q s) :=
  decidable_of_iff (p ∈ cfg.cluster x ∧ q ∈ cfg.cluster x ∧ (s.peers p).role = .follower ∧
      (s.peers q).role = .candidate ∧ (s.peers q).electionVotes ≤ (s.peers q).clusterSize / 2 ∧
      (∀ r ∈ cfg.cluster x, (s.peers r).term ≤ (s.peers q).term) ∧
      (∀ last ∈ (s.peers q).log.getLast?, (s.peers p).outruns last.term last.index = true) ∧
      ∀ m ∈ s.net, Harmless s p q m)
    ⟨fun ⟨follower, candidate, follows, stands, unelected, latest, behind, harmless⟩ ↦
        ⟨follower, candidate, follows, stands, unelected, latest, behind, harmless⟩,
      fun ⟨follower, candidate, follows, stands, unelected, latest, behind, harmless⟩ ↦
        ⟨follower, candidate, follows, stands, unelected, latest, behind, harmless⟩⟩

/-- The other members have failed, and no grant of a poll of `p` nor vote for `q` that was sent
before is delivered to them. -/
def Unaided (cfg : Config) (x p q : Uid) (net₀ : List Message) (_ : Hist) (s : World)
    (a : Action) : Prop :=
  TermsBelow cfg s ∧ (a.peer ∈ cfg.cluster x → a.peer = p ∨ a.peer = q) ∧
    match a.call with
    | .recv (.pollRsp rsp) => rsp.target = p → rsp.success = true → .pollRsp rsp ∉ net₀
    | .recv (.electionRsp rsp) => rsp.target = q → rsp.success = true → .electionRsp rsp ∉ net₀
    | _ => True

instance (cfg : Config) (x p q : Uid) (net₀ : List Message) (h : Hist) (s : World)
    (a : Action) : Decidable (Unaided cfg x p q net₀ h s a) := by
  unfold Unaided
  induction a.call using Call.casesOn with
  | recv m => induction m using Message.casesOn <;> infer_instance
  | _ => infer_instance

namespace Stalemate

/-- The grants and votes on their way are from before. -/
structure Within (p q : Uid) (net₀ net : List Message) : Prop where
  grants : ∀ rsp, .pollRsp rsp ∈ net → rsp.target = p → rsp.success = true → .pollRsp rsp ∈ net₀
  votes : ∀ rsp, .electionRsp rsp ∈ net → rsp.target = q → rsp.success = true →
    .electionRsp rsp ∈ net₀

section
variable {cfg : Config} {h : Hist} {s t : World} {a : Action} {x p q : Uid} {net₀ : List Message}

/-- What a call of the follower leaves of its view: it has not led nor accepted anything, and has
not voted for the candidate. -/
structure Idle (s : World) (p q : Uid) (v : View) : Prop where
  role : v.node.role ≠ .leader
  fresh : v.node.role = .candidate → v.node.electionVotes ≤ 1
  log : v.node.log = (s.peers p).log
  commitIndex : v.node.commitIndex = (s.peers p).commitIndex
  votes : ∀ rsp, .electionRsp rsp ∈ v.sent → rsp.target = q → rsp.success = false

private theorem Idle.move (stalemate : Stalemate cfg x p q s) (wired : Wired cfg s)
    (several : 2 ≤ (s.peers p).clusterSize) {rcv : Option Message} {o : Oracle}
    (hr : ∀ m, rcv = some m → m ∈ s.net) {v w : View} (wiring : Wiring cfg s p v)
    (idle : Idle s p q v) (move : Move rcv o (s.peers p) v w) : Idle s p q w := by
  have size : v.node.clusterSize = (s.peers p).clusterSize :=
    wiring.placed.2.2.trans (wired.placed p).2.2.symm
  obtain ⟨role, fresh, log, commitIndex, votes⟩ := idle
  cases move with
  | say ms ds spoken =>
    refine ⟨role, fresh, log, commitIndex, fun rsp hrsp target ↦ ?_⟩
    rcases List.mem_append.mp hrsp with old | new
    · exact votes rsp old target
    · exact (spoken _ new).2
  | bump => exact ⟨by simp, by simp, log, commitIndex, votes⟩
  | stand => exact ⟨by simp, by simp, log, commitIndex, votes⟩
  | @grant req last received addressed term follows free hlast ahead =>
    refine ⟨role, fresh, log, commitIndex, fun rsp hrsp source ↦ ?_⟩
    rcases List.mem_append.mp hrsp with old | new
    · exact votes rsp old source
    · obtain rfl := Message.electionRsp.inj (List.mem_singleton.mp new)
      have outruns := stalemate.harmless _ (hr _ received) (addressed.trans wiring.placed.1) source
      unfold Peer.outruns at outruns
      rw [← log, hlast] at outruns
      simp [ahead] at outruns
  | count received addressed term stands granted start =>
    rw [start] at stands
    exact absurd (stalemate.follows.symm.trans stands) (by decide)
  | elect stands quorum =>
    have few := fresh stands
    rw [size] at quorum
    omega
  | append leads => exact absurd leads role
  | accept received addressed term =>
    have earlier := stalemate.harmless _ (hr _ received) (addressed.trans wiring.placed.1)
    rw [term] at earlier
    exact absurd wiring.grown (Nat.not_le.mpr earlier)
  | commit received start commits =>
    have leads := (Peer.commits_eq_some.mp commits).1.2.1
    exact absurd (stalemate.follows.symm.trans leads) (by decide)
  | commitAlone leads => exact absurd leads role

/-- What a call of the candidate leaves of its view: it stands, without a majority, for the log it
had. -/
structure Standing (s : World) (q : Uid) (v : View) : Prop where
  role : v.node.role = .candidate
  few : v.node.electionVotes ≤ v.node.clusterSize / 2
  log : v.node.log = (s.peers q).log
  commitIndex : v.node.commitIndex = (s.peers q).commitIndex
  votes : ∀ rsp, .electionRsp rsp ∈ v.sent → rsp.success = false
  requests : ∀ req, .appendReq req ∉ v.sent
  names : ∀ req, .electionReq req ∈ v.sent → ∃ last ∈ (s.peers q).log.getLast?,
    req.lastTerm = last.term ∧ req.lastIndex = last.index

private theorem Standing.move (stalemate : Stalemate cfg x p q s) (wired : Wired cfg s)
    (several : 2 ≤ (s.peers q).clusterSize) {rcv : Option Message} {o : Oracle}
    (hr : ∀ m, rcv = some m → m ∈ s.net)
    (refused : ∀ rsp, rcv = some (.electionRsp rsp) → rsp.target = q → rsp.success = false)
    {v w : View} (wiring : Wiring cfg s q v) (standing : Standing s q v)
    (move : Move rcv o (s.peers q) v w) : Standing s q w := by
  have size : v.node.clusterSize = (s.peers q).clusterSize :=
    wiring.placed.2.2.trans (wired.placed q).2.2.symm
  obtain ⟨role, few, log, commitIndex, votes, requests, names⟩ := standing
  cases move with
  | say ms ds spoken =>
    refine ⟨role, few, log, commitIndex, fun rsp hrsp ↦ ?_, fun req hreq ↦ ?_, fun req hreq ↦ ?_⟩
    · rcases List.mem_append.mp hrsp with old | new
      · exact votes rsp old
      · exact (spoken _ new).2
    · rcases List.mem_append.mp hreq with old | new
      · exact requests req old
      · exact absurd ((spoken _ new).2.1.symm.trans role) (by decide)
    · rcases List.mem_append.mp hreq with old | new
      · exact names req old
      · obtain ⟨-, last, hlast, lastTerm, lastIndex⟩ := (spoken _ new).2
        exact ⟨last, log ▸ hlast, lastTerm, lastIndex⟩
  | bump received letter addressed higher =>
    have target : _ = q := addressed.trans wiring.placed.1
    have le := wired.letter_le (hr _ received) letter (target ▸ stalemate.candidate)
      stalemate.latest
    exact absurd (le.trans wiring.grown) (Nat.not_le.mpr higher)
  | stand => exact ⟨rfl, by change 1 ≤ v.node.clusterSize / 2; omega, log, commitIndex, votes,
      requests, names⟩
  | grant received addressed term follows => exact absurd (role.symm.trans follows) (by decide)
  | count received addressed term stands granted =>
    have := refused _ received (addressed.trans wiring.placed.1)
    exact absurd granted (by simp [this])
  | elect stands quorum => exact absurd few (Nat.not_le.mpr quorum)
  | append leads => exact absurd (role.symm.trans leads) (by decide)
  | accept received addressed term follows => exact absurd (role.symm.trans follows) (by decide)
  | commit received start commits =>
    have leads := (Peer.commits_eq_some.mp commits).1.2.1
    exact absurd (stalemate.stands.symm.trans leads) (by decide)
  | commitAlone leads => exact absurd (role.symm.trans leads) (by decide)

/-- The logs and commit indices of the cluster stay. -/
def SameLogs (cfg : Config) (x : Uid) (s t : World) : Prop :=
  ∀ r ∈ cfg.cluster x, (t.peers r).log = (s.peers r).log ∧
    (t.peers r).commitIndex = (s.peers r).commitIndex

private theorem SameLogs.trans {u : World} (st : SameLogs cfg x s t) (tu : SameLogs cfg x t u) :
    SameLogs cfg x s u := fun r hr ↦
  ⟨(tu r hr).1.trans (st r hr).1, (tu r hr).2.trans (st r hr).2⟩

/-- If one peer changes, and neither its log nor its commit index. -/
theorem SameLogs.of_update {r : Uid} {n : Peer} (peers : t.peers = Function.update s.peers r n)
    (log : n.log = (s.peers r).log) (commitIndex : n.commitIndex = (s.peers r).commitIndex) :
    SameLogs cfg x s t := by
  intro y _
  rw [peers]
  rcases eq_or_ne y r with rfl | other
  · rw [Function.update_self]
    exact ⟨log, commitIndex⟩
  · rw [Function.update_of_ne other]
    exact ⟨rfl, rfl⟩

/-- Nothing is granted to the follower, nor voted for the candidate. -/
theorem Within.append {net ms : List Message} (within : Within p q net₀ net)
    (grants : ∀ rsp, .pollRsp rsp ∈ ms → rsp.target = p → rsp.success = false)
    (votes : ∀ rsp, .electionRsp rsp ∈ ms → rsp.target = q → rsp.success = false) :
    Within p q net₀ (net ++ ms) where
  grants rsp sent target granted := by
    rcases List.mem_append.mp sent with old | new
    · exact within.grants rsp old target granted
    · exact absurd granted (by simp [grants rsp new target])
  votes rsp sent target granted := by
    rcases List.mem_append.mp sent with old | new
    · exact within.votes rsp old target granted
    · exact absurd granted (by simp [votes rsp new target])

/-- With the logs, what is ahead of what stays. -/
theorem keep (stalemate : Stalemate cfg x p q s) (logs : SameLogs cfg x s t)
    (follows : (t.peers p).role = .follower) (stands : (t.peers q).role = .candidate)
    (unelected : (t.peers q).electionVotes ≤ (t.peers q).clusterSize / 2)
    (latest : ∀ r ∈ cfg.cluster x, (t.peers r).term ≤ (t.peers q).term)
    (grown : (s.peers p).term ≤ (t.peers p).term) {ms : List Message} (net : t.net = s.net ++ ms)
    (sent : ∀ m ∈ ms, Harmless t p q m) : Stalemate cfg x p q t where
  follower := stalemate.follower
  candidate := stalemate.candidate
  follows := follows
  stands := stands
  unelected := unelected
  latest := latest
  behind := by
    unfold Peer.outruns
    rw [(logs q stalemate.candidate).1, (logs p stalemate.follower).1]
    exact stalemate.behind
  harmless := by
    intro m hm
    rw [net] at hm
    rcases List.mem_append.mp hm with old | new
    · have before := stalemate.harmless m old
      cases m with
      | appendReq req => exact fun target ↦ Nat.lt_of_lt_of_le (before target) grown
      | electionReq req =>
        unfold Harmless Peer.outruns
        rw [(logs p stalemate.follower).1]
        exact before
      | _ => trivial
    · exact sent m new

/-- The follower and the candidate are two. -/
theorem ne (stalemate : Stalemate cfg x p q s) : p ≠ q := by
  rintro rfl
  exact absurd (stalemate.follows.symm.trans stalemate.stands) (by decide)

/-- So the cluster has two members. -/
theorem several (stalemate : Stalemate cfg x p q s) (wired : Wired cfg s) {r : Uid}
    (hr : r ∈ cfg.cluster x) : 2 ≤ (s.peers r).clusterSize := by
  rw [show (s.peers r).clusterSize = _ from ((wired.placed r).card_cluster hr).symm]
  exact Finset.one_lt_card.mpr
    ⟨p, stalemate.follower, q, stalemate.candidate, stalemate.ne⟩

/-- A poll that is delivered to the follower was refused. -/
theorem Within.grant_refused (within : Within p q net₀ s.net)
    (unaided : Unaided cfg x p q net₀ h s a) (next : s.step cfg a = some t) {rsp : PollRsp}
    (hcall : a.call = .recv (.pollRsp rsp)) (target : rsp.target = p) : rsp.success = false := by
  have sent : .pollRsp rsp ∈ s.net :=
    (World.step_cases next).1.received _ (by rw [hcall]; rfl)
  obtain ⟨-, -, delivers⟩ := unaided
  rw [hcall] at delivers
  by_contra granted
  have granted : rsp.success = true := by simpa using granted
  exact delivers target granted (within.grants rsp sent target granted)

/-- A vote that is delivered to the candidate was refused. -/
theorem Within.vote_refused (within : Within p q net₀ s.net)
    (unaided : Unaided cfg x p q net₀ h s a) (next : s.step cfg a = some t) {rsp : ElectionRsp}
    (received : a.call.received = some (.electionRsp rsp)) (target : rsp.target = q) :
    rsp.success = false := by
  have sent : .electionRsp rsp ∈ s.net := (World.step_cases next).1.received _ received
  obtain ⟨-, -, delivers⟩ := unaided
  rw [Call.eq_recv received] at delivers
  by_contra granted
  have granted : rsp.success = true := by simpa using granted
  exact delivers target granted (within.votes rsp sent target granted)

/-- The follower goes on following, in a term that is not past the candidate's. -/
theorem follows_on (stalemate : Stalemate cfg x p q s) {C : Hist → World → Action → Prop}
    (run : Run cfg C h s) (wired : Wired cfg s) (next : s.step cfg a = some t) (own : a.peer = p)
    (refused : ∀ rsp, a.call = .recv (.pollRsp rsp) → rsp.target = p → rsp.success = false) :
    (t.peers p).role = .follower ∧ (t.peers p).term ≤ (s.peers q).term := by
  subst own
  have id : (s.peers a.peer).id = a.peer := (wired.placed a.peer).1
  have several := stalemate.several wired stalemate.follower
  have few : (s.peers a.peer).pollVotes ≤ (s.peers a.peer).clusterSize / 2 := by
    have := (run.counts stalemate.follows).few
    omega
  have call := station_body (o := a.oracle) (s := s.enclave a.peer) stalemate.follows
    (fun rsp hcall target ↦ refused rsp hcall (target.trans id)) few several
  obtain ⟨allowed, e, ⟨follows, term⟩, hpeers, -⟩ := World.step_of_wp next call
  rw [hpeers, Function.update_self]
  refine ⟨follows, ?_⟩
  rcases term with same | ⟨m, l, received, letter, target, same⟩
  · rw [same]
    exact stalemate.latest _ stalemate.follower
  · rw [same]
    refine wired.letter_le (allowed.received m received) letter ?_ stalemate.latest
    rw [target.trans id]
    exact stalemate.follower

/-- The candidate grants no poll. -/
theorem grants_none (stalemate : Stalemate cfg x p q s) (wired : Wired cfg s)
    (next : s.step cfg a = some t) (own : a.peer = q) {ms : List Message}
    (net : t.net = s.net ++ ms) : ∀ m ∈ ms, m.grantsPoll = false := by
  subst own
  have allowed := (World.step_cases next).1
  have current : ∀ m l, a.call.received = some m → m.letter = some l →
      l.target = (s.peers a.peer).id → l.term ≤ (s.peers a.peer).term := by
    intro m l received letter target
    refine wired.letter_le (allowed.received m received) letter ?_ stalemate.latest
    rw [target, show (s.peers a.peer).id = a.peer from (wired.placed a.peer).1]
    exact stalemate.candidate
  have call := refuses_body (o := a.oracle) (s := s.enclave a.peer) stalemate.stands current
  obtain ⟨-, e, ⟨ms', sent, plain⟩, -, net', -⟩ := World.step_of_wp next call
  have same : ms' = ms := List.append_cancel_left ((sent ▸ net').symm.trans net)
  exact same ▸ plain

/-- A call of the follower. -/
theorem step_follower (stalemate : Stalemate cfg x p q s) {C : Hist → World → Action → Prop}
    (run : Run cfg C h s) (wired : Wired cfg s) (within : Within p q net₀ s.net)
    (unaided : Unaided cfg x p q net₀ h s a) (next : s.step cfg a = some t) (own : a.peer = p) :
    Stalemate cfg x p q t ∧ Within p q net₀ t.net ∧ SameLogs cfg x s t := by
  subst own
  have below := unaided.1
  have allowed := (World.step_cases next).1
  have several := stalemate.several wired stalemate.follower
  obtain ⟨follows, current⟩ := stalemate.follows_on run wired next rfl
    fun _ ↦ within.grant_refused unaided next
  -- it keeps its log, and votes for nobody that is behind
  obtain ⟨e, moves, wiring, hpeers, hnet⟩ := wired.call below next
  have start : Idle s a.peer q (s.enclave a.peer).view :=
    ⟨by simp [EnclaveState.view, World.enclave, Peer.node, stalemate.follows],
      by simp [EnclaveState.view, World.enclave, Peer.node, stalemate.follows], rfl, rfl,
      fun _ h ↦ absurd h List.not_mem_nil⟩
  have idle := Wiring.keeps wired below allowed.received stalemate.follower
    (fun _ _ wiring idle move _ ↦ idle.move stalemate wired several allowed.received wiring move)
    (.start wired a.peer) start moves
  have other {r : Uid} (hr : r ≠ a.peer) : t.peers r = s.peers r := by
    rw [hpeers, Function.update_of_ne hr]
  have logs : SameLogs cfg x s t := .of_update hpeers idle.log idle.commitIndex
  have hq : t.peers q = s.peers q := other stalemate.ne.symm
  have away {m : Message} (hm : m ∈ e.sent) {l : Letter} (letter : m.letter = some l) :
      l.source = a.peer ∧ l.target ≠ a.peer := by
    obtain ⟨source, ne, -⟩ := wiring.posted m hm l letter
    exact ⟨source, fun target ↦ ne (source.trans target.symm)⟩
  refine ⟨stalemate.keep logs follows (hq ▸ stalemate.stands) (hq ▸ stalemate.unelected)
    (fun r hr ↦ ?_) (wired.term_le below next a.peer) hnet fun m hm ↦ ?_,
    hnet ▸ within.append (fun rsp sent target ↦ ?_) fun rsp sent target ↦ ?_, logs⟩
  · rw [hq]
    rcases eq_or_ne r a.peer with rfl | ne
    · exact current
    · rw [other ne]
      exact stalemate.latest r hr
  · cases m with
    | appendReq req => exact fun target ↦ absurd target (away hm rfl).2
    | electionReq req =>
      exact fun _ source ↦ absurd ((away hm rfl).1.symm.trans source) stalemate.ne
    | _ => trivial
  · exact absurd target (away sent rfl).2
  · exact idle.votes rsp sent target

/-- A call of the candidate. -/
theorem step_candidate (stalemate : Stalemate cfg x p q s) (wired : Wired cfg s)
    (within : Within p q net₀ s.net) (unaided : Unaided cfg x p q net₀ h s a)
    (next : s.step cfg a = some t) (own : a.peer = q) :
    Stalemate cfg x p q t ∧ Within p q net₀ t.net ∧ SameLogs cfg x s t := by
  subst own
  have below := unaided.1
  have allowed := (World.step_cases next).1
  have several := stalemate.several wired stalemate.candidate
  -- it stands on, for the log it had
  obtain ⟨e, moves, wiring, hpeers, hnet⟩ := wired.call below next
  have start : Standing s a.peer (s.enclave a.peer).view :=
    ⟨stalemate.stands, stalemate.unelected, rfl, rfl, fun _ h ↦ absurd h List.not_mem_nil,
      fun _ ↦ List.not_mem_nil, fun _ h ↦ absurd h List.not_mem_nil⟩
  have standing := Wiring.keeps wired below allowed.received stalemate.candidate
    (fun _ _ wiring standing move _ ↦
      standing.move stalemate wired several allowed.received
        (fun _ ↦ within.vote_refused unaided next) wiring move)
    (.start wired a.peer) start moves
  have other {r : Uid} (hr : r ≠ a.peer) : t.peers r = s.peers r := by
    rw [hpeers, Function.update_of_ne hr]
  have logs : SameLogs cfg x s t := .of_update hpeers standing.log standing.commitIndex
  have hp : t.peers p = s.peers p := other stalemate.ne
  have hq : t.peers a.peer = e.self := by rw [hpeers, Function.update_self]
  refine ⟨stalemate.keep logs (hp ▸ stalemate.follows) (hq ▸ standing.role) (hq ▸ standing.few)
    (fun r hr ↦ ?_) (wired.term_le below next p) hnet fun m hm ↦ ?_,
    hnet ▸ within.append (fun rsp sent target ↦ ?_) fun rsp sent target ↦ ?_, logs⟩
  · rcases eq_or_ne r a.peer with rfl | ne
    · exact Nat.le_refl _
    · rw [other ne]
      exact (stalemate.latest r hr).trans (wired.term_le below next a.peer)
  · cases m with
    | appendReq req => exact absurd hm (standing.requests req)
    | electionReq req =>
      obtain ⟨last, hlast, lastTerm, lastIndex⟩ := standing.names req hm
      rw [Harmless, hp, lastTerm, lastIndex]
      exact fun _ _ ↦ stalemate.behind last hlast
    | _ => trivial
  · exact stalemate.grants_none wired next rfl hnet _ sent
  · exact standing.votes rsp sent

/-- A call of a peer of another cluster. -/
theorem step_outside (stalemate : Stalemate cfg x p q s) (wired : Wired cfg s)
    (within : Within p q net₀ s.net) (below : TermsBelow cfg s) (next : s.step cfg a = some t)
    (outside : a.peer ∉ cfg.cluster x) :
    Stalemate cfg x p q t ∧ Within p q net₀ t.net ∧ SameLogs cfg x s t := by
  obtain ⟨e, -, wiring, -, hnet⟩ := wired.call below next
  have same {r : Uid} (hr : r ∈ cfg.cluster x) : t.peers r = s.peers r :=
    World.step_other next fun own ↦ outside (own ▸ hr)
  have away {m : Message} (hm : m ∈ e.sent) {l : Letter} (letter : m.letter = some l) :
      l.target ∉ cfg.cluster x := by
    intro target
    obtain ⟨-, -, inside, -⟩ := wiring.posted m hm l letter
    refine outside ?_
    rw [← Config.clusterOf_of_mem target, Config.clusterOf_of_mem inside]
    exact Config.mem_cluster_clusterOf (World.step_cases next).1.1
  have logs : SameLogs cfg x s t := fun r hr ↦ by rw [same hr]; exact ⟨rfl, rfl⟩
  have hp := same stalemate.follower
  have hq := same stalemate.candidate
  refine ⟨stalemate.keep logs (hp ▸ stalemate.follows) (hq ▸ stalemate.stands)
    (hq ▸ stalemate.unelected) (fun r hr ↦ ?_) (wired.term_le below next p) hnet fun m hm ↦ ?_,
    hnet ▸ within.append (fun rsp sent target ↦ ?_) fun rsp sent target ↦ ?_, logs⟩
  · rw [same hr, hq]
    exact stalemate.latest r hr
  · cases m with
    | appendReq req => exact fun target ↦ absurd (target ▸ stalemate.follower) (away hm rfl)
    | electionReq req => exact fun target ↦ absurd (target ▸ stalemate.follower) (away hm rfl)
    | _ => trivial
  · exact absurd (target ▸ stalemate.follower) (away sent rfl)
  · exact absurd (target ▸ stalemate.candidate) (away sent rfl)

end

end Stalemate

section
variable {cfg : Config} {h₀ h : Hist} {s₀ s : World} {x p q : Uid}

/-- A replayed schedule continues a run. -/
theorem onward_of_replay {C : Hist → World → Action → Prop}
    [∀ h s a, Decidable (C h s a)] (on : Onward cfg C h₀ s₀ h s) {cues : List Cue}
    {r : Hist × World} (hr : replay cfg C h s cues = some r) : Onward cfg C h₀ s₀ r.1 r.2 := by
  induction cues generalizing h s with
  | nil =>
    rw [replay, Option.some.injEq] at hr
    rwa [← hr]
  | cons cue cues ih =>
    rw [replay] at hr
    split at hr
    · split at hr
      · next meets =>
        split at hr
        · next next => exact ih (on.step meets next) hr
        · cases hr
      · cases hr
    · cases hr

/-- Where only a follower and a candidate that is behind it are left, the one follows and the
other stands for ever, and nothing is appended or committed again.
`src/enclave/enclave.cpp:148–170,443–461,670–730,769–875`. -/
theorem stalemate_lasts (run : Run cfg (fun _ s _ ↦ TermsBelow cfg s) h₀ s₀)
    (stalemate : Stalemate cfg x p q s₀)
    (on : Onward cfg (Unaided cfg x p q s₀.net) h₀ s₀ h s) :
    Stalemate cfg x p q s ∧ Stalemate.SameLogs cfg x s₀ s := by
  have invariant : Stalemate cfg x p q s ∧ Stalemate.Within p q s₀.net s.net ∧
      Stalemate.SameLogs cfg x s₀ s := by
    induction on with
    | here =>
      exact ⟨stalemate, ⟨fun _ sent _ _ ↦ sent, fun _ sent _ _ ↦ sent⟩, fun _ _ ↦ ⟨rfl, rfl⟩⟩
    | @step h s t a on unaided next ih =>
      obtain ⟨stalemate, within, logs⟩ := ih
      have run := on.run (fun _ _ _ h ↦ h.1) run
      have wired := run.wired_of_below
      have step : Stalemate cfg x p q t ∧ Stalemate.Within p q s₀.net t.net ∧
          Stalemate.SameLogs cfg x s t := by
        by_cases inside : a.peer ∈ cfg.cluster x
        · rcases unaided.2.1 inside with own | own
          · exact stalemate.step_follower run wired within unaided next own
          · exact stalemate.step_candidate wired within unaided next own
        · exact stalemate.step_outside wired within unaided.1 next inside
      exact ⟨step.1, step.2.1, logs.trans step.2.2⟩
  exact ⟨invariant.1, invariant.2.2⟩

end

/-- One event with three peers. -/
def triad : Config where
  workflow := unrelated [⟨0, 1⟩]
  peerMap := [(⟨0, 11⟩, ⟨0, 1⟩), (⟨0, 12⟩, ⟨0, 1⟩), (⟨0, 13⟩, ⟨0, 1⟩)]

/-- Two of three peers elect no leader once the third has failed: a poll that was granted before the
entry was appended lets the peer stand that lacks it. -/
theorem triad_stalemate_lasts : ∃ h s, Run triad (fun _ s _ ↦ TermsBelow triad s) h s ∧
    (s.peers ⟨0, 12⟩).term = 4 ∧ Stalemate triad ⟨0, 1⟩ ⟨0, 11⟩ ⟨0, 12⟩ s ∧
    ∀ p ∈ triad.cluster ⟨0, 1⟩, (s.peers p).commitIndex = 0 := by
  obtain ⟨r, hr, stalemate, u, hu, term, uncommitted⟩ :
      ∃ r ∈ replay triad (fun _ s _ ↦ TermsBelow triad s) [] (.initial triad)
        [.tick ⟨0, 11⟩ 1 emptyUid, .tick ⟨0, 12⟩ 1 emptyUid, .tick ⟨0, 13⟩ 1 emptyUid,
          .tick ⟨0, 12⟩ 10000 emptyUid, .deliver ⟨0, 11⟩ 0, .tick ⟨0, 11⟩ 10000 emptyUid,
          .deliver ⟨0, 13⟩ 4, .deliver ⟨0, 11⟩ 5, .deliver ⟨0, 13⟩ 7, .deliver ⟨0, 12⟩ 6,
          .deliver ⟨0, 11⟩ 8, .start ⟨0, 11⟩ ⟨0, 1⟩ ⟨0, 101⟩, .deliver ⟨0, 11⟩ 12,
          .deliver ⟨0, 12⟩ 2, .deliver ⟨0, 11⟩ 15],
        Stalemate triad ⟨0, 1⟩ ⟨0, 11⟩ ⟨0, 12⟩ r.2 ∧
          ∃ u ∈ replay triad (Unaided triad ⟨0, 1⟩ ⟨0, 11⟩ ⟨0, 12⟩ r.2.net) r.1 r.2
            [.tick ⟨0, 12⟩ 20000 emptyUid, .deliver ⟨0, 11⟩ 18, .tick ⟨0, 11⟩ 20000 emptyUid,
              .deliver ⟨0, 12⟩ 21, .tick ⟨0, 12⟩ 30000 emptyUid],
            (u.2.peers ⟨0, 12⟩).term = 4 ∧
              ∀ p ∈ triad.cluster ⟨0, 1⟩, (r.2.peers p).commitIndex = 0 := by
    decide +kernel
  have run : Run triad (fun _ s _ ↦ TermsBelow triad s) r.1 r.2 := run_of_replay .initial hr
  have on := onward_of_replay .here hu
  obtain ⟨lasts, logs⟩ := stalemate_lasts run stalemate on
  exact ⟨_, _, on.run (fun _ _ _ h ↦ h.1) run, term, lasts,
    fun p hp ↦ (logs p hp).2.trans (uncommitted p hp)⟩

end TrustedDcr.System
