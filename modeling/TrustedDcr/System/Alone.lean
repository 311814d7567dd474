import TrustedDcr.System.Network

/-!
# Peers that are alone in their cluster

A peer that is alone commits an entry with the call that appends it, and no letter is
ever addressed to it. So its whole log is committed between its calls, in every run
and whatever the terms.
-/

namespace TrustedDcr.Enclave
open TrustedDcr.Msg TrustedDcr.Dcr TrustedDcr.Dcr.DcrWorkflow TrustedDcr.Theory

/-- The peer is alone and has committed its whole log. -/
def Peer.Settled (p : Peer) : Prop := p.clusterSize = 1 ∧ p.log.length = p.commitIndex + 1

/-- A settled peer is settled again. -/
def Settles (s t : EnclaveState) : Prop := s.self.Settled → t.self.Settled

instance : Std.Refl Settles := ⟨fun _ ↦ id⟩

instance : IsTrans EnclaveState Settles := ⟨fun _ _ _ st tu hs ↦ tu (st hs)⟩

/-- What the cluster sees of the peer is what counts. -/
theorem Settles.of_node {s t : EnclaveState} (node : t.self.node = s.self.node) : Settles s t := by
  rintro ⟨alone, committed⟩
  refine ⟨(congrArg Node.clusterSize node).trans alone, ?_⟩
  rw [show t.self.log = s.self.log from congrArg Node.log node,
    show t.self.commitIndex = s.self.commitIndex from congrArg Node.commitIndex node]
  exact committed

variable {o : Oracle}

private theorem settles_of_aside {α : Type} {x : Ecall α} (h : Along Aside x) : Along Settles x :=
  fun s ↦ wp_mono (h s) fun _ _ hst ↦ .of_node hst.node

private theorem settles_modifySelf {f : Peer → Peer} (h : ∀ p, (f p).clusterSize = p.clusterSize ∧
    (f p).log = p.log ∧ (f p).commitIndex = p.commitIndex) : Along Settles (modifySelf f) := by
  intro s
  rw [wp_modifySelf]
  rintro ⟨alone, committed⟩
  obtain ⟨hsize, hlog, hcommit⟩ := h s.self
  refine ⟨hsize.trans alone, ?_⟩
  dsimp only
  rw [hlog, hcommit]
  exact committed

private theorem settles_macAndBroadcastMsgs (msgs : List Message) :
    Along Settles (macAndBroadcastMsgs msgs) := fun _ ↦ wp_macAndBroadcastMsgs.mpr id

private theorem settles_macAndSendMsg (msg : Message) : Along Settles (macAndSendMsg msg) :=
  fun _ ↦ wp_macAndSendMsg.mpr id

private theorem settles_getSelf : Along Settles getSelf := settles_of_aside along_getSelf

/-- What a peer that is alone appends, it commits. -/
theorem settles_appendToLog (entry : Entry) : Along Settles (appendToLog o entry) := by
  intro s
  by_cases alone : s.self.clusterSize = 1
  · unfold appendToLog
    refine wp_bind_modifySelf fun t ht ↦ ?_
    have halone : t.self.clusterSize = 1 := by rw [ht]; exact alone
    have hlog : 0 < t.self.log.length := by rw [ht]; simp
    rw [wp_bind, wp_getSelf, if_pos halone]
    refine wp_mono (updateCommitIndex_spec o _ t) ?_
    rintro _ _ ⟨u, hu, -, rfl⟩ -
    refine ⟨(congrArg Node.clusterSize hu.node).trans halone, ?_⟩
    dsimp only
    rw [show u.self.log = t.self.log from congrArg Node.log hu.node]
    omega
  · exact fun _ _ _ h ↦ absurd h.1 alone

private theorem settles_appendCommand (req : CommandReq) (tag : CommandTag) :
    Along Settles (appendCommand o req tag) :=
  settles_getSelf.bind fun _ ↦ settles_appendToLog _

private theorem settles_admitLock (req : CommandReq) : Along Settles (admitLock o req) := by
  unfold admitLock
  refine settles_getSelf.bind fun self ↦ (Along.lift _).bind fun found ↦ ?_
  refine Along.ite (settles_macAndSendMsg _) (Along.ite ?_ (settles_appendCommand _ _))
  generalize self.workflow.isEventEnabled self.clusterEvent = query
  obtain ⟨enabled, workflow⟩ := query
  refine (settles_modifySelf (by simp)).bind fun _ ↦ ?_
  exact Along.ite (settles_macAndSendMsg _)
    (Along.ite (settles_appendCommand _ _) (settles_appendCommand _ _))

private theorem settles_recvCommandReq (valid : Bool) (req : CommandReq) :
    Along Settles (recvCommandReq o valid req) := by
  unfold recvCommandReq
  refine settles_getSelf.bind fun self ↦ Along.ite (Along.pure _) (Along.ite (Along.pure _)
    (Along.ite (settles_macAndSendMsg _) ?_))
  cases self.existInLog req.tag with
  | some index => exact Along.ite (settles_macAndSendMsg _) (Along.pure _)
  | none => exact Along.ite (settles_admitLock req) (settles_appendCommand req _)

private theorem settles_abortExecution (tagId : Uid) : Along Settles (abortExecution o tagId) := by
  unfold abortExecution
  refine (settles_modifySelf (by simp)).bind fun _ ↦ settles_getSelf.bind fun self ↦
    (settles_appendToLog _).bind fun _ ↦ settles_getSelf.bind fun self ↦
    Along.bind (Along.mapM fun event _ ↦ ?_) fun reqs ↦ settles_macAndBroadcastMsgs _
  exact settles_of_aside fun s ↦ wp_mono (abortCommand_spec tagId event s) fun _ _ h ↦ h.1

private theorem settles_recvCommandRsp (valid : Bool) (rsp : CommandRsp) :
    Along Settles (recvCommandRsp o valid rsp) := by
  have clear : Along Settles (clearMissingResp rsp) := by
    intro s
    refine wp_mono (clearMissingResp_spec rsp s) ?_
    rintro _ _ ⟨missing, rfl⟩
    exact .of_node rfl
  unfold recvCommandRsp
  refine settles_getSelf.bind fun self ↦ Along.ite (Along.pure _) (Along.ite (Along.pure _)
    (Along.ite (Along.pure _) (Along.ite (settles_of_aside (aside_recvRedirect rsp))
    (clear.bind fun _ ↦ ?_))))
  cases rsp.tag.type with
  | abort =>
    unfold recvAbortRsp
    refine (settles_of_aside (aside_leaderMapAt _)).bind fun event ↦ settles_getSelf.bind fun self ↦
      (Along.lift _).bind fun locked ↦ Along.ite (Along.pure _) ((Along.lift _).bind fun own ↦ ?_)
    exact Along.ite (settles_abortExecution _) (Along.ite (settles_appendToLog _) (Along.pure _))
  | exec => exact settles_modifySelf (by simp)
  | checkpoint => exact Along.pure _
  | lock =>
    unfold recvLockRsp
    refine settles_getSelf.bind fun self ↦ ?_
    cases self.existInLog rsp.tag with
    | none => exact Along.pure _
    | some lockIndex =>
      refine (Along.lift _).bind fun resolved ↦
        Along.ite (settles_of_aside (aside_answerResolved rsp lockIndex)) ?_
      unfold countLock
      refine (settles_of_aside (aside_peerToEventMapAt _)).bind fun event ↦
        (settles_modifySelf (by simp)).bind fun _ ↦ settles_getSelf.bind fun self ↦
        Along.ite ?_ (Along.pure _)
      exact (settles_of_aside (aside_sendExecution o _)).bind fun _ ↦
        (settles_appendToLog _).bind fun _ ↦ settles_modifySelf (by simp)

private theorem settles_retryRequests : Along Settles (retryRequests o) := by
  unfold retryRequests
  refine settles_getSelf.bind fun self ↦
    Along.bind (Along.forM fun r _ ↦ settles_of_aside (aside_retryRequest o _ _)) fun _ ↦
    (settles_modifySelf (by simp)).bind fun _ ↦ settles_getSelf.bind fun self ↦
    Along.ite ((Along.lift _).bind fun found ↦ ?_) (Along.pure _)
  refine Along.ite (Along.ite ?_ (Along.pure _)) (Along.pure _)
  exact (settles_of_aside (aside_generateRandomUid o)).bind fun uid ↦
    (settles_appendToLog _).bind fun _ ↦ settles_modifySelf (by simp)

private theorem settles_heartbeat : Along Settles heartbeat := by
  unfold heartbeat
  exact settles_getSelf.bind fun self ↦
    Along.ite ((Along.lift _).bind fun last ↦ settles_macAndBroadcastMsgs _) (Along.pure _)

private theorem settles_startPoll : Along Settles startPoll := by
  unfold startPoll
  exact settles_getSelf.bind fun self ↦
    Along.ite ((Along.lift _).bind fun last ↦ settles_macAndBroadcastMsgs _) (Along.pure _)

private theorem settles_startElection : Along Settles (startElection o) := by
  unfold startElection
  exact (settles_of_aside (aside_updateTimeout o)).bind fun _ ↦
    (settles_modifySelf (by simp [Peer.updateTerm])).bind fun _ ↦
    (settles_modifySelf (by simp)).bind fun _ ↦ settles_getSelf.bind fun self ↦
    (Along.lift _).bind fun last ↦ settles_macAndBroadcastMsgs _

private theorem settles_setTime (ticks : UInt64) : Along Settles (setTime o ticks) := by
  have timeouts := settles_of_aside (aside_updateTimeout o)
  have leads : Along Settles (leaderTimeout o) :=
    settles_heartbeat.bind fun _ ↦ settles_retryRequests.bind fun _ ↦ timeouts
  unfold setTime
  refine settles_getSelf.bind fun self ↦ (settles_modifySelf (by simp)).bind fun _ ↦
    settles_getSelf.bind fun self ↦ Along.ite ?_ (Along.pure _)
  unfold timeout
  refine settles_getSelf.bind fun self ↦ Along.when leads <| settles_getSelf.bind fun self ↦
    Along.when settles_startElection <| settles_getSelf.bind fun self ↦ Along.ite ?_ (Along.pure _)
  exact timeouts.bind fun _ ↦ settles_startPoll

/-- A letter to another peer is dropped. -/
theorem settles_recv_of_letter {m : Message} {l : Letter} (letter : m.letter = some l)
    {s : EnclaveState} (other : l.target ≠ s.self.id) :
    wp (System.dispatch o m) (fun _ t ↦ Settles s t) s := by
  have dropped {body : Ecall Unit} : wp (do
      let verified ← verifyMacAndOwnTerm true l.target l.source l.term
      if verified then body) (fun _ t ↦ Settles s t) s := by
    unfold verifyMacAndOwnTerm
    rw [if_neg (by simp), wp_bind, wp_bind, wp_getSelf,
      if_pos (by simpa using (uidsEqual_eq_false _ _).mpr other)]
    exact wp_pure.mpr (wp_pure.mpr id)
  cases m with
  | commandReq | commandRsp | logReq | logRsp => exact nomatch letter
  | appendReq | appendRsp | pollReq | pollRsp | electionReq | electionRsp =>
    obtain rfl := Option.some.inj letter
    exact dropped

end TrustedDcr.Enclave

namespace TrustedDcr.System
open TrustedDcr.Msg TrustedDcr.Dcr TrustedDcr.Enclave TrustedDcr.Theory

/-- Every peer is in its place, and letters pass between two members of one cluster. -/
structure Local (cfg : Config) (s : World) : Prop where
  placed : ∀ p, Placed cfg p (s.peers p).node
  posted : ∀ m ∈ s.net, ∀ l, m.letter = some l →
    (∃ x, l.source ∈ cfg.cluster x ∧ l.target ∈ cfg.cluster x) ∧ l.source ≠ l.target

section
variable {cfg : Config} {C : Hist → World → Action → Prop} {h : Hist} {s t : World} {a : Action}

/-- The sender of an addressed letter answers within its cluster. -/
theorem Local.target_mem (hl : Local cfg s) {rcv : Option Message}
    (hr : ∀ m, rcv = some m → m ∈ s.net) {p x : Uid} (hp : p ∈ cfg.cluster x) {n : Node}
    (hn : Placed cfg p n) {l : Letter} (ha : Addressed rcv n l) :
    l.source = p ∧ l.source ≠ l.target ∧ l.target ∈ cfg.cluster x := by
  obtain ⟨id, members, -⟩ := hn
  obtain ⟨source, -, ⟨hin, hne⟩ | ⟨m, r, hm, letter, target, answer⟩⟩ := ha
  · rw [members, Config.clusterOf_of_mem hp] at hin
    rw [source]
    exact ⟨id, Ne.symm hne, List.mem_toFinset.mpr hin⟩
  · obtain ⟨⟨y, hs, ht⟩, hne⟩ := hl.posted m (hr m hm) r letter
    rw [target, id] at ht hne
    obtain rfl := (Config.clusterOf_of_mem ht).symm.trans (Config.clusterOf_of_mem hp)
    rw [source, id, ← answer]
    exact ⟨rfl, Ne.symm hne, hs⟩

/-- A step keeps letters inside their clusters, whatever the terms. -/
theorem Local.step (hl : Local cfg s) (next : s.step cfg a = some t) : Local cfg t := by
  obtain ⟨allowed, e, goes, hpeers, hnet, -⟩ := World.step_cases next
  have hp := Config.mem_cluster_clusterOf allowed.1
  have call : ∀ v, Relation.ReflTransGen (Move a.call.received a.oracle (s.peers a.peer))
      (s.enclave a.peer).view v → Placed cfg a.peer v.node ∧
        ∀ m ∈ v.sent, ∀ l, m.letter = some l → l.source = a.peer ∧ l.source ≠ l.target ∧
          l.target ∈ cfg.cluster (cfg.clusterOf a.peer) := by
    intro v moves
    induction moves with
    | refl => exact ⟨hl.placed a.peer, fun m hm ↦ nomatch hm⟩
    | tail _ move ih =>
      obtain ⟨placed, posted⟩ := ih
      have answer {l : Letter} := hl.target_mem allowed.received hp placed (l := l)
      cases move with
      | say ms ds spoken =>
        refine ⟨placed, fun m hm l letter ↦ ?_⟩
        rcases List.mem_append.mp hm with hm | hm
        · exact posted m hm l letter
        · exact answer ((spoken m hm).1 l letter)
      | grant received addressed term | accept received addressed term =>
        refine ⟨placed, fun m hm l letter ↦ ?_⟩
        rcases List.mem_append.mp hm with hm | hm
        · exact posted m hm l letter
        · obtain rfl := List.mem_singleton.mp hm
          obtain rfl := Option.some.inj letter
          exact answer ⟨rfl, rfl, Or.inr ⟨_, _, received, rfl, addressed, rfl⟩⟩
      | bump | stand | count | elect | append | commit | commitAlone => exact ⟨placed, posted⟩
  obtain ⟨placed, posted⟩ := call _ goes.moves
  constructor
  · intro q
    rw [hpeers]
    rcases eq_or_ne q a.peer with rfl | hq
    · rw [Function.update_self]
      exact placed
    · rw [Function.update_of_ne hq]
      exact hl.placed q
  · intro m hm l letter
    rw [hnet] at hm
    rcases List.mem_append.mp hm with hm | hm
    · exact hl.posted m hm l letter
    · obtain ⟨source, hne, target⟩ := posted m hm l letter
      exact ⟨⟨_, source ▸ hp, target⟩, hne⟩

/-- Letters stay inside their clusters in every run. -/
theorem Run.local (run : Run cfg C h s) : Local cfg s := by
  induction run with
  | initial =>
    refine ⟨fun p ↦ ?_, fun m hm ↦ nomatch hm⟩
    rw [show (World.initial cfg).peers p = configured cfg p from rfl, (fresh_configured cfg p).node]
    exact ⟨rfl, rfl, rfl⟩
  | step _ _ next ih => exact ih.step next

/-- A letter that a peer which is alone could be sent would come from itself. -/
theorem Local.target_ne (hl : Local cfg s) {m : Message} (hm : m ∈ s.net) {l : Letter}
    (letter : m.letter = some l) {p : Uid} (alone : (s.peers p).clusterSize = 1) :
    l.target ≠ p := by
  intro target
  obtain ⟨⟨x, hsource, htarget⟩, hne⟩ := hl.posted m hm l letter
  rw [target] at htarget hne
  exact hne ((hl.placed p).eq_of_alone alone htarget hsource)

/-- Between its calls, a peer that is alone has committed its whole log. -/
theorem Run.settled (run : Run cfg C h s) {p : Uid} (alone : (s.peers p).clusterSize = 1) :
    (s.peers p).Settled := by
  induction run with
  | initial =>
    refine ⟨alone, ?_⟩
    have node := (fresh_configured cfg p).node
    change (configured cfg p).log.length = (configured cfg p).commitIndex + 1
    rw [show (configured cfg p).log = _ from congrArg Node.log node,
      show (configured cfg p).commitIndex = _ from congrArg Node.commitIndex node]
    rfl
  | @step h s t a run _ next ih =>
    have size : (t.peers p).clusterSize = (s.peers p).clusterSize :=
      ((run.local.step next).placed p).2.2.trans (run.local.placed p).2.2.symm
    have settled := ih (size.symm.trans alone)
    rcases eq_or_ne p a.peer with rfl | hne
    · have call : wp (a.call.body a.oracle) (fun _ e ↦ Settles (s.enclave a.peer) e)
          (s.enclave a.peer) := by
        cases hcall : a.call with
        | setTime ticks => exact settles_setTime ticks _
        | execute event => exact settles_of_aside (aside_execute event) _
        | getHistory => exact settles_of_aside aside_getHistory _
        | recv m =>
          cases hletter : m.letter with
          | some l =>
            have hm := (World.step_cases next).1.received m (by rw [hcall]; rfl)
            apply settles_recv_of_letter hletter
            rw [show ((s.enclave a.peer).self.id) = a.peer from (run.local.placed a.peer).1]
            exact run.local.target_ne hm hletter settled.1
          | none =>
            cases m with
            | commandReq req => exact settles_recvCommandReq true req _
            | commandRsp rsp => exact settles_recvCommandRsp true rsp _
            | logReq req => exact settles_of_aside (aside_recvLogReq true req) _
            | logRsp rsp => exact settles_of_aside (aside_recvLogRsp true rsp) _
            | appendReq | appendRsp | pollReq | pollRsp | electionReq | electionRsp =>
              exact nomatch hletter
      obtain ⟨-, e, settles, hpeers, -⟩ := World.step_of_wp next call
      rw [hpeers, Function.update_self]
      exact settles settled
    · obtain ⟨-, e, -, hpeers, -⟩ := World.step_cases next
      rw [hpeers, Function.update_of_ne hne]
      exact settled

end

end TrustedDcr.System
