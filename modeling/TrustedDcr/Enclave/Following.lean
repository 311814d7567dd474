import TrustedDcr.Enclave.Commands
import TrustedDcr.Enclave.Parts

/-!
# What a follower keeps of its term

A peer keeps its leader twice: in `leader`, which it redirects to and whose requests
renew its timeout, and in `leader_map` under its own event. A letter of a later term
sets both to its source and gives up the votes of a poll. While a peer follows in one
term only a failed `log_rsp_t` of its own cluster changes one of the names, and only
responses to polls bring votes.
-/

namespace TrustedDcr.Enclave
open TrustedDcr.Msg TrustedDcr.Dcr TrustedDcr.Theory

variable {o : Oracle}

/-- The leader the peer follows, and the one it has mapped to its own event. -/
def Peer.Names (p : Peer) (leader mapped : Uid) : Prop :=
  p.leader = leader ∧ p.leaderMap[p.clusterEvent]? = some mapped

/-- A peer names one leader and maps one. -/
theorem Peer.Names.unique {p : Peer} {leader mapped leader' mapped' : Uid}
    (h : p.Names leader mapped) (h' : p.Names leader' mapped') :
    leader = leader' ∧ mapped = mapped' :=
  ⟨h.1.symm.trans h'.1, Option.some.inj (h.2.symm.trans h'.2)⟩

/-- The letter of a later term, addressed to the peer, that a message is. -/
def Peer.entersBy (p : Peer) (msg : Message) : Option Letter :=
  msg.letter.filter fun l ↦ uidsEqual l.target p.id && decide (p.term < l.term)

/-- The peer that a failed response from the own cluster names as the leader. -/
def Peer.renames (p : Peer) : Message → Option Uid
  | .logRsp rsp =>
    if !rsp.success && uidsEqual (p.eventOf rsp.source) p.clusterEvent then some rsp.leader else none
  | _ => none

/-- What stays of a follower while its term stays. -/
structure Stays (p q : Peer) : Prop where
  role : p.role = .follower
  term : q.term = p.term
  pollVotes : q.pollVotes = p.pollVotes
  names : ∀ leader mapped, p.Names leader mapped → q.Names leader mapped

/-- A peer that follows afterwards has followed before, in the same term, with the same names and
votes. -/
def Follows (s t : EnclaveState) : Prop := t.self.role = .follower → Stays s.self t.self

namespace Follows

variable {s t : EnclaveState}

instance : Std.Refl Follows := ⟨fun _ follows ↦ ⟨follows, rfl, rfl, fun _ _ h ↦ h⟩⟩

instance : IsTrans EnclaveState Follows := ⟨by
  intro s t u st tu follows
  have htu := tu follows
  have hst := st htu.role
  exact ⟨hst.role, htu.term.trans hst.term, htu.pollVotes.trans hst.pollVotes,
    fun x y h ↦ htu.names x y (hst.names x y h)⟩⟩

/-- Where the peer does not follow afterwards. -/
theorem of_not_follower (h : t.self.role ≠ .follower) : Follows s t := fun follows ↦ absurd follows h

/-- What a follower keeps is read from these. -/
def reads (p : Peer) : Role × Nat × Nat × Uid × Uid × UidMap Uid :=
  (p.role, p.term, p.pollVotes, p.leader, p.clusterEvent, p.leaderMap)

/-- Where none of it has changed. -/
theorem of_same (h : Same reads s t) : Follows s t := by
  intro follows
  simp only [Same, reads, Prod.mk.injEq] at h
  obtain ⟨role, term, pollVotes, leader, event, leaderMap⟩ := h
  refine ⟨role ▸ follows, term, pollVotes, fun x y names ↦ ?_⟩
  unfold Peer.Names
  rwa [leader, event, leaderMap]

private theorem of_along {α : Type} {x : Ecall α} (h : Along (Same reads) x) :
    Along Follows x := fun s ↦
  wp_mono (h s) fun _ _ ↦ of_same

end Follows

/-! ### Helpers -/

private theorem same_updateTimeout : Along (Same Follows.reads) (updateTimeout o) := by
  refine same_modifySelf _ fun p ↦ ?_
  split <;> simp [Follows.reads]

/-- A lookup enters an event that has no leader yet, and changes no other. -/
theorem follows_leaderMapAt (event : Uid) : Along Follows (leaderMapAt event) := by
  intro s
  unfold leaderMapAt
  rw [wp_bind, wp_getSelf]
  cases hfound : s.self.leaderMap[event]? with
  | some leader => exact wp_pure.mpr (Follows.of_same rfl)
  | none =>
    rw [wp_bind, wp_modifySelf, wp_pure]
    refine fun follows ↦ ⟨follows, rfl, rfl, ?_⟩
    rintro leader mapped ⟨hleader, hmapped⟩
    refine ⟨hleader, ?_⟩
    have other : event ≠ s.self.clusterEvent := by
      rintro rfl
      exact nomatch hfound.symm.trans hmapped
    simpa [Std.ExtTreeMap.getElem?_insert, other] using hmapped

/-- A follower commits as one. -/
theorem same_updateCommitIndex {index : Nat} {s : EnclaveState} (follows : s.self.role = .follower) :
    wp (updateCommitIndex o index) (fun _ t ↦ Same Follows.reads s t) s := by
  unfold updateCommitIndex
  rw [wp_bind, wp_getSelf, wp_bind, wp_lift]
  intro committed _
  rw [if_pos (by simp [follows]), wp_bind, wp_modifySelf, wp_modifySelf]
  rfl

private theorem same_acceptEntries {req : AppendReq} {s : EnclaveState}
    (follows : s.self.role = .follower) :
    wp (acceptEntries o req) (fun _ t ↦ Same Follows.reads s t) s := by
  unfold acceptEntries
  refine wp_bind_modifySelf fun t ht ↦ wp_bind_modifySelf fun u hu ↦ ?_
  have same : Same Follows.reads s u := by
    rw [hu, ht]
    rfl
  rw [wp_bind, wp_getSelf]
  refine wp_when (Same Follows.reads s) (fun _ ↦ ?_) (fun _ ↦ same) fun v hv ↦ ?_
  · have role : u.self.role = .follower := (congrArg Prod.fst same).trans follows
    exact wp_mono (same_updateCommitIndex role) fun _ _ h ↦ IsTrans.trans _ _ _ same h
  · exact wp_macAndSendMsg.mpr hv

/-! ### Letters -/

/-- What a call makes of a letter that brings so many votes for a poll: one of a later term gives
the term and the names and takes all other votes, any other leaves a follower as it was. -/
structure Heeds (l : Letter) (votes : Nat) (s t : EnclaveState) : Prop where
  entered : l.target = s.self.id → s.self.term < l.term → t.self.role = .follower →
    t.self.term = l.term ∧ t.self.pollVotes = 1 + votes ∧ t.self.Names l.source l.source
  kept : ¬(l.target = s.self.id ∧ s.self.term < l.term) →
    Follows { s with self := { s.self with pollVotes := s.self.pollVotes + votes } } t

/-- A verified letter is another peer's, or of a later term, or the rest of the call treats the peer
as it is. -/
theorem wp_verified {target source : Uid} {term : Nat} {body : Ecall Unit}
    {Q : Unit → EnclaveState → Prop} {s : EnclaveState} (dropped : target ≠ s.self.id → Q ⟨⟩ s)
    (entered : target = s.self.id → s.self.term < term → wp body Q { s with
      self := { s.self.updateTerm term source with lockedEntryIndex := -1, role := .follower } })
    (current : target = s.self.id → term ≤ s.self.term → wp body Q s) :
    wp (do
      let verified ← verifyMacAndOwnTerm true target source term
      if verified then body) Q s := by
  unfold verifyMacAndOwnTerm
  rw [if_neg (by simp), wp_bind, wp_bind, wp_getSelf, wp_ite]
  constructor
  · intro other
    rw [wp_pure, if_neg Bool.false_ne_true, wp_pure]
    exact dropped fun h ↦ by simp [h] at other
  · intro addressed
    have addressed : target = s.self.id := by simpa using addressed
    rw [wp_ite]
    constructor
    · intro later
      rw [wp_bind, wp_modifySelf, wp_pure, if_pos rfl]
      exact entered addressed later
    · intro later
      rw [wp_pure, if_pos rfl]
      exact current addressed (Nat.not_lt.mp later)

/-- What follows a verified letter leaves names and votes alone. -/
theorem heeds_verified {target source : Uid} {term : Nat} {body : Ecall Unit}
    (hbody : Along Follows body) (s : EnclaveState) :
    wp (do
      let verified ← verifyMacAndOwnTerm true target source term
      if verified then body) (fun _ t ↦ Heeds ⟨source, target, term⟩ 0 s t) s := by
  apply wp_verified
  · exact fun other ↦ ⟨fun h ↦ absurd h other, fun _ ↦ Std.Refl.refl s⟩
  · intro addressed later
    refine wp_mono (hbody _) fun _ t ht ↦ ⟨fun _ _ follows ↦ ?_, fun h ↦ absurd ⟨addressed, later⟩ h⟩
    have stays := ht follows
    refine ⟨stays.term, stays.pollVotes, stays.names source source ⟨rfl, ?_⟩⟩
    exact Std.ExtTreeMap.getElem?_insert_self
  · intro _ current
    exact wp_mono (hbody s) fun _ _ ht ↦ ⟨fun _ h ↦ absurd h (Nat.not_lt.mpr current), fun _ ↦ ht⟩

/-- The peer takes over or refuses the request as a follower of its term. -/
def Peer.processes (p : Peer) (req : AppendReq) : Bool :=
  uidsEqual req.target p.id && (p.term < req.term || p.term == req.term && p.role == .follower)

/-- A request to append leaves the names alone, and a peer that processes it follows. -/
theorem heeds_recvAppendReq (req : AppendReq) (s : EnclaveState) :
    wp (recvAppendReq o true req) (fun _ t ↦ Heeds ⟨req.source, req.target, req.term⟩ 0 s t ∧
      (s.self.processes req = true → t.self.role = .follower)) s := by
  unfold recvAppendReq
  have hbody : Along (Same Follows.reads) (do
      let self ← getSelf
      let verified ← verifyMsgTerm req.term <| .appendRsp
        { target := req.source, source := self.id, term := self.term, prevTerm := 0,
          prevIndex := 0, success := false, lastIndex := 0 }
      if verified then
        if self.role = .follower then
          if uidsEqual req.source self.leader then updateTimeout o
          if !self.termAndIndexExistInLog req.prevTerm req.prevIndex then
            macAndSendMsg <| .appendRsp
              { target := req.source, source := self.id, term := self.term,
                prevTerm := req.prevTerm, prevIndex := req.prevIndex, success := false,
                lastIndex := 2 ^ 32 - 1 }
          else acceptEntries o req) := by
    intro u
    rw [wp_bind, wp_getSelf]
    refine wp_bind_along (same_verifyMsgTerm Follows.reads _ _) fun verified v hv ↦ ?_
    rw [wp_ite]
    refine ⟨fun _ ↦ ?_, fun _ ↦ wp_pure.mpr hv⟩
    rw [wp_ite]
    refine ⟨fun follows ↦ ?_, fun _ ↦ wp_pure.mpr hv⟩
    refine wp_when (Same Follows.reads u) (fun _ ↦ ?_) (fun _ ↦ hv) fun w hw ↦ ?_
    · exact wp_mono (same_updateTimeout v) fun _ _ h ↦ IsTrans.trans _ _ _ hv h
    · rw [wp_ite]
      refine ⟨fun _ ↦ wp_macAndSendMsg.mpr hw, fun _ ↦ ?_⟩
      have hrole : w.self.role = .follower := (congrArg Prod.fst hw).trans follows
      exact wp_mono (same_acceptEntries hrole) fun _ _ h ↦ IsTrans.trans _ _ _ hw h
  refine wp_and (heeds_verified (Follows.of_along hbody) s) (wp_verified ?_ ?_ ?_)
  · intro other processes
    simp [Peer.processes, other] at processes
  · intro _ _
    exact wp_mono (hbody _) fun _ t ht _ ↦ congrArg Prod.fst ht
  · intro _ current
    refine wp_mono (hbody s) fun _ t ht processes ↦ (congrArg Prod.fst ht).trans ?_
    simp [Peer.processes, Nat.not_lt.mpr current] at processes
    exact processes.2.2

/-- An append response brings no votes. -/
theorem heeds_recvAppendRsp (rsp : AppendRsp) (s : EnclaveState) :
    wp (recvAppendRsp o true rsp)
      (fun _ t ↦ Heeds ⟨rsp.source, rsp.target, rsp.term⟩ 0 s t) s := by
  unfold recvAppendRsp
  refine heeds_verified (fun u ↦ ?_) s
  rw [wp_bind, wp_getSelf, wp_ite]
  refine ⟨fun leads ↦ ?_, fun _ ↦ wp_pure.mpr (Std.Refl.refl u)⟩
  have busy {v : EnclaveState} (h : v.self.role = .leader) : Follows u v :=
    Follows.of_not_follower (by simp [h])
  rw [wp_ite]
  constructor
  · intro _
    refine wp_bind_modifySelf fun v hv ↦ ?_
    have leads : v.self.role = .leader := by
      rw [hv]
      exact leads
    rw [wp_bind, wp_getSelf, wp_bind, wp_lift]
    intro index _
    rw [wp_bind, wp_lift]
    intro entry _
    rw [wp_ite]
    refine ⟨fun _ ↦ wp_mono (updateCommitIndex_spec o index v) ?_,
      fun _ ↦ wp_pure.mpr (busy leads)⟩
    rintro _ _ ⟨w, executes, -, rfl⟩
    exact busy ((congrArg Node.role executes.node).trans leads)
  · intro _
    rw [wp_bind, wp_lift]
    intro prev _
    exact wp_macAndSendMsg.mpr (busy leads)

/-- A poll request brings no votes. -/
theorem heeds_recvPollReq (req : PollReq) (s : EnclaveState) :
    wp (recvPollReq true req) (fun _ t ↦ Heeds ⟨req.source, req.target, req.term⟩ 0 s t) s := by
  unfold recvPollReq
  refine heeds_verified (Follows.of_along ?_) s
  refine along_getSelf.bind fun _ ↦ (same_verifyMsgTerm _ _ _).bind fun _ ↦
    Along.ite ?_ (Along.pure _)
  exact (Along.lift _).bind fun _ ↦ same_macAndSendMsg _ _

/-- The peer counts the response towards its poll. -/
def Peer.countsPoll (p : Peer) (rsp : PollRsp) : Bool :=
  uidsEqual rsp.target p.id && (p.term < rsp.term || p.role == .follower) && rsp.success

/-- The poll responses a peer counts: granted, addressed to it, and of a later term or to a
follower. -/
theorem Peer.countsPoll_iff {p : Peer} {rsp : PollRsp} : p.countsPoll rsp = true ↔
    rsp.target = p.id ∧ (p.term < rsp.term ∨ p.role = .follower) ∧ rsp.success = true := by
  simp [Peer.countsPoll, and_assoc]

/-- What `recv_poll_rsp` does with a verified response. `src/enclave/enclave.cpp:812–823`. -/
def countPoll (o : Oracle) (success : Bool) : Ecall Unit := do
  let self ← getSelf
  if self.role = .follower then
    if success then modifySelf fun p ↦ { p with pollVotes := p.pollVotes + 1 }
    let self ← getSelf
    if self.pollVotes > self.clusterSize / 2 then startElection o

/-- A follower counts the vote, and stands if that makes a majority. -/
theorem countPoll_of_follower {success : Bool} {s : EnclaveState}
    (follows : s.self.role = .follower) : countPoll o success s =
      (if s.self.clusterSize / 2 < s.self.pollVotes + success.toNat then startElection o
      else pure ⟨⟩) { s with
        self := { s.self with pollVotes := s.self.pollVotes + success.toNat } } := by
  unfold countPoll
  rw [getSelf_bind, if_pos follows]
  cases success <;> rfl

/-- Who does not follow drops the response. -/
theorem countPoll_of_not_follower {success : Bool} {s : EnclaveState}
    (busy : s.self.role ≠ .follower) : countPoll o success s = .ok (⟨⟩, s) := by
  unfold countPoll
  rw [getSelf_bind, if_neg busy]
  rfl

/-- A follower that stays one has counted the response, and has no majority yet. -/
theorem wp_countPoll {success : Bool} (s : EnclaveState) :
    wp (countPoll o success) (fun _ t ↦ t.self.role = .follower → s.self.role = .follower ∧
      t.self = { s.self with pollVotes := s.self.pollVotes + success.toNat } ∧
      t.self.pollVotes ≤ t.self.clusterSize / 2) s := by
  intro a t returns after
  by_cases follows : s.self.role = .follower
  · rw [countPoll_of_follower follows] at returns
    split at returns
    · have stands := stands_startElection _ a t returns
      exact nomatch stands.1.symm.trans after
    · next few =>
      obtain ⟨⟩ := returns
      exact ⟨follows, rfl, Nat.not_lt.mp few⟩
  · rw [countPoll_of_not_follower follows] at returns
    obtain ⟨⟩ := returns
    exact absurd after follows

/-- A response to a poll brings at most one vote, and not a majority without an election. -/
theorem heeds_recvPollRsp (rsp : PollRsp) (s : EnclaveState) :
    wp (recvPollRsp o true rsp) (fun _ t ↦
      Heeds ⟨rsp.source, rsp.target, rsp.term⟩ (s.self.countsPoll rsp).toNat s t ∧
        (rsp.target = s.self.id → t.self.role = .follower →
          t.self.pollVotes ≤ t.self.clusterSize / 2)) s := by
  unfold recvPollRsp
  apply wp_verified
  · intro other
    have uncounted : s.self.countsPoll rsp = false := by simp [Peer.countsPoll, other]
    rw [uncounted]
    exact ⟨⟨fun h ↦ absurd h other, fun _ ↦ Std.Refl.refl s⟩, fun h ↦ absurd h other⟩
  · intro addressed later
    have counted : s.self.countsPoll rsp = rsp.success := by simp [Peer.countsPoll, addressed, later]
    rw [counted]
    refine wp_mono (wp_countPoll _) fun _ t ht ↦ ⟨⟨fun _ _ follows ↦ ?_,
      fun h ↦ absurd ⟨addressed, later⟩ h⟩, fun _ follows ↦ (ht follows).2.2⟩
    obtain ⟨-, hself, -⟩ := ht follows
    rw [hself]
    exact ⟨rfl, rfl, rfl, Std.ExtTreeMap.getElem?_insert_self⟩
  · intro addressed current
    refine wp_mono (wp_countPoll s) fun _ t ht ↦
      ⟨⟨fun _ h ↦ absurd h (Nat.not_lt.mpr current), fun _ follows ↦ ?_⟩,
        fun _ follows ↦ (ht follows).2.2⟩
    obtain ⟨before, hself, -⟩ := ht follows
    have counted : s.self.countsPoll rsp = rsp.success := by
      simp [Peer.countsPoll, addressed, before]
    rw [hself, counted]
    exact ⟨before, rfl, rfl, fun _ _ h ↦ h⟩

/-- The peer that counts a response, once it has verified it. -/
def Peer.counting (p : Peer) (rsp : PollRsp) : Peer :=
  if p.term < rsp.term then
    { p.updateTerm rsp.term rsp.source with lockedEntryIndex := -1, role := .follower }
  else p

/-- The term in which `recv_poll_rsp` calls `start_election`, if it does. -/
def Peer.electsIn (p : Peer) (rsp : PollRsp) : Option Nat :=
  let q := p.counting rsp
  if uidsEqual rsp.target p.id && q.role == .follower &&
      decide (q.clusterSize / 2 < q.pollVotes + rsp.success.toNat) then some q.term
  else none

/-- The poll responses that make a follower stand for election, and in which term. -/
theorem Peer.electsIn_eq_some {p : Peer} {rsp : PollRsp} {term : Nat} :
    p.electsIn rsp = some term ↔ rsp.target = p.id ∧ (p.counting rsp).role = .follower ∧
      (p.counting rsp).clusterSize / 2 < (p.counting rsp).pollVotes + rsp.success.toNat ∧
      (p.counting rsp).term = term := by
  simp [Peer.electsIn, and_assoc]

/-- An election request brings a follower no votes. -/
theorem heeds_recvElectionReq (req : ElectionReq) (s : EnclaveState) :
    wp (recvElectionReq true req) (fun _ t ↦ Heeds ⟨req.source, req.target, req.term⟩ 0 s t) s := by
  unfold recvElectionReq
  refine heeds_verified (Follows.of_along ?_) s
  refine along_getSelf.bind fun _ ↦ (same_verifyMsgTerm _ _ _).bind fun _ ↦
    Along.ite (Along.ite ?_ (Along.pure _)) (Along.pure _)
  refine (Along.lift _).bind fun _ ↦ Along.when ?_ (same_macAndSendMsg _ _)
  exact same_modifySelf _ fun _ ↦ rfl

/-- An election response brings no votes for a poll. -/
theorem heeds_recvElectionRsp (rsp : ElectionRsp) (s : EnclaveState) :
    wp (recvElectionRsp o true rsp)
      (fun _ t ↦ Heeds ⟨rsp.source, rsp.target, rsp.term⟩ 0 s t) s := by
  unfold recvElectionRsp
  refine heeds_verified ?_ s
  refine along_getSelf.bind fun self ↦ Along.ite ?_ (Along.pure _)
  refine Along.ite ?_ (Along.pure _)
  refine Along.bind (Follows.of_along (same_modifySelf _ ?_)) fun _ ↦ ?_
  · exact fun _ ↦ rfl
  refine along_getSelf.bind fun self ↦ Along.ite ?_ (Along.pure _)
  refine (Follows.of_along (same_heartbeat _)).bind fun _ u ↦ ?_
  refine wp_mono (becomeLeader_spec u) ?_
  rintro _ t ⟨v, _, -, rfl, lead⟩
  have hrole : t.self.role = .leader := congrArg Node.role lead.node
  exact Follows.of_not_follower (by simp [hrole])

/-! ### Calls without a letter -/

/-- Only a letter makes a peer follow. -/
theorem waits_of_moves {rcv : Option Message} {p : Peer} {v w : View}
    (noLetter : ∀ m, rcv = some m → m.letter = none) (busy : v.node.role ≠ .follower)
    (moves : Relation.ReflTransGen (Move rcv o p) v w) : w.node.role ≠ .follower := by
  induction moves with
  | refl => exact busy
  | tail _ move ih =>
    cases move with
    | bump received letter => exact nomatch (noLetter _ received).symm.trans letter
    | stand | elect => simp
    | say | grant | count | append | accept | commit | commitAlone => exact ih

/-- A follower whose timeout has passed polls. -/
theorem follows_setTime {ticks : UInt64} {s : EnclaveState} (follows : s.self.role = .follower) :
    wp (setTime o ticks) (fun _ t ↦ Follows s t) s := by
  unfold setTime
  rw [wp_bind, wp_getSelf]
  refine wp_bind_modifySelf fun t ht ↦ ?_
  have same : Same Follows.reads s t := by
    rw [ht]
    rfl
  have role : t.self.role = .follower := (congrArg Prod.fst same).trans follows
  rw [wp_bind, wp_getSelf, wp_ite]
  refine ⟨fun _ ↦ ?_, fun _ ↦ wp_pure.mpr (Follows.of_same same)⟩
  unfold timeout
  rw [wp_bind, wp_getSelf, if_neg (by simp [role]), wp_bind, wp_getSelf,
    if_neg (by simp [role]), wp_bind, wp_getSelf, if_pos role]
  refine wp_bind_along same_updateTimeout fun _ u hu ↦ ?_
  refine wp_mono (same_startPoll Follows.reads u) fun _ _ h ↦ ?_
  exact Follows.of_same (IsTrans.trans _ _ _ same (IsTrans.trans _ _ _ hu h))

/-- Starting an attempt leaves a follower as it was. -/
theorem follows_execute (event : Uid) : Along Follows (execute o event) :=
  (follows_leaderMapAt event).bind fun _ ↦ Follows.of_along <| along_getSelf.bind fun _ ↦
    (same_generateRandomUid _).bind fun _ ↦ same_macAndSendMsg _ _

/-- Asking for the history leaves a follower as it was. -/
theorem follows_getHistory : Along Follows getHistory := by
  unfold getHistory
  refine along_getSelf.bind fun self ↦ ?_
  refine Along.bind (Along.mapM fun event _ ↦ ?_)
    fun _ ↦ Follows.of_along (same_macAndBroadcastMsgs _ _)
  exact (follows_leaderMapAt event).bind fun _ ↦ Along.pure _

/-- A follower redirects. -/
theorem follows_recvCommandReq {req : CommandReq} {s : EnclaveState}
    (follows : s.self.role = .follower) :
    wp (recvCommandReq o true req) (fun _ t ↦ Follows s t) s := by
  unfold recvCommandReq
  rw [wp_bind, wp_getSelf, if_neg (by simp), wp_ite]
  refine ⟨fun _ ↦ wp_pure.mpr (Std.Refl.refl s), fun _ ↦ ?_⟩
  rw [if_pos (by simp [follows]), wp_macAndSendMsg]
  exact Follows.of_same rfl

/-- A follower drops responses to commands. -/
theorem follows_recvCommandRsp {rsp : CommandRsp} {s : EnclaveState}
    (follows : s.self.role = .follower) :
    wp (recvCommandRsp o true rsp) (fun _ t ↦ Follows s t) s := by
  unfold recvCommandRsp
  rw [wp_bind, wp_getSelf, if_neg (by simp), wp_ite]
  refine ⟨fun _ ↦ wp_pure.mpr (Std.Refl.refl s), fun _ ↦ ?_⟩
  rw [if_pos (by simp [follows])]
  exact wp_pure.mpr (Std.Refl.refl s)

/-- A follower answers for the history and stays as it was. -/
theorem follows_recvLogReq {req : LogReq} {s : EnclaveState} (follows : s.self.role = .follower) :
    wp (recvLogReq true req) (fun _ t ↦ Follows s t) s := by
  unfold recvLogReq
  rw [wp_bind, wp_getSelf, if_neg (by simp), wp_ite]
  refine ⟨fun _ ↦ wp_pure.mpr (Std.Refl.refl s), fun _ ↦ ?_⟩
  rw [if_neg (by simp [follows]), wp_macAndSendMsg]
  exact Follows.of_same rfl

/-- A failed response of the own cluster renames the leader in the map alone. -/
theorem recvLogRsp_names (rsp : LogRsp) (s : EnclaveState) :
    wp (recvLogRsp true rsp) (fun _ t ↦
        (t.self.role, t.self.term, t.self.pollVotes) = (s.self.role, s.self.term, s.self.pollVotes) ∧
      ∀ leader mapped, s.self.Names leader mapped →
        t.self.Names leader ((s.self.renames (.logRsp rsp)).getD mapped)) s := by
  unfold recvLogRsp
  rw [if_pos rfl]
  refine wp_bind_of_ok (peerToEventMapAt_eq rsp.source s) ?_
  rw [wp_ite]
  constructor
  · intro failed
    rw [wp_bind, wp_modifySelf, wp_bind, wp_getSelf, wp_macAndSendMsg]
    refine ⟨rfl, fun leader mapped ⟨hleader, hmapped⟩ ↦ ⟨hleader, ?_⟩⟩
    change (s.self.leaderMap.insert (s.self.eventOf rsp.source) rsp.leader)[s.self.clusterEvent]? = _
    unfold Peer.renames
    by_cases own : s.self.eventOf rsp.source = s.self.clusterEvent
    · simp [own, failed]
    · simpa [own, Std.ExtTreeMap.getElem?_insert] using hmapped
  · intro granted
    rw [wp_modify]
    refine ⟨rfl, fun leader mapped names ↦ ?_⟩
    have kept : s.self.renames (.logRsp rsp) = none := by simp [Peer.renames, granted]
    rw [kept]
    exact names

end TrustedDcr.Enclave
