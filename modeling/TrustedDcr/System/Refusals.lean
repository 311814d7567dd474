import TrustedDcr.System.Step

/-!
# Requests of an old term

`verify_msg_term` refuses a request of an earlier term than the peer's own, and its
callers are to stop there. `recv_append_req` and `recv_election_req` do;
`recv_poll_req` drops the result, and a follower answers once more.
-/

namespace TrustedDcr.Msg

/-- The requests between the members of a cluster. -/
def Message.asks : Message → Bool
  | .appendReq _ | .pollReq _ | .electionReq _ => true
  | _ => false

/-- `poll_req_t`. -/
def Message.isPoll : Message → Bool
  | .pollReq _ => true
  | _ => false

end TrustedDcr.Msg

namespace TrustedDcr.System
open TrustedDcr.Msg TrustedDcr.Enclave TrustedDcr.Theory

/-- The response answers the request with a refusal in the given term. -/
def Refuses (term : Nat) : Message → Message → Prop
  | .appendReq req, .appendRsp rsp => rsp.target = req.source ∧ rsp.success = false ∧ rsp.term = term
  | .pollReq req, .pollRsp rsp => rsp.target = req.source ∧ rsp.success = false ∧ rsp.term = term
  | .electionReq req, .electionRsp rsp =>
    rsp.target = req.source ∧ rsp.success = false ∧ rsp.term = term
  | _, _ => False

/-- A refusal is sent, and what the peer holds is as before. -/
structure OnlyRefuses (req : Message) (s t : EnclaveState) : Prop where
  sent : ∃ rsp, t.sent = s.sent ++ [rsp] ∧ Refuses s.self.term req rsp
  log : t.self.log = s.self.log
  commitIndex : t.self.commitIndex = s.self.commitIndex
  term : t.self.term = s.self.term
  role : t.self.role = s.self.role
  endorsement : t.self.endorsement = s.self.endorsement
  leader : t.self.leader = s.self.leader
  tMin : t.self.tMin = s.self.tMin
  t : t.self.t = s.self.t

/-- Nothing but the refusal. -/
theorem OnlyRefuses.of_sent {req rsp : Message} {s : EnclaveState}
    (refuses : Refuses s.self.term req rsp) :
    OnlyRefuses req s { s with sent := s.sent ++ [rsp] } :=
  ⟨⟨rsp, rfl, refuses⟩, rfl, rfl, rfl, rfl, rfl, rfl, rfl, rfl⟩

section
variable {s : EnclaveState} {o : Oracle}

/-- `recv_append_req` stops at the refusal. -/
theorem runs_recvAppendReq_of_lt {req : AppendReq} (addressed : req.target = s.self.id)
    (stale : req.term < s.self.term) :
    Runs (recvAppendReq o true req) (fun _ t ↦ OnlyRefuses (.appendReq req) s t) s := by
  have verified := verifyMacAndOwnTerm_of_le req.source addressed (Nat.le_of_lt stale)
  unfold Runs recvAppendReq
  rw [bind_of_ok verified, if_pos rfl, getSelf_bind, bind_of_ok (verifyMsgTerm_of_lt _ stale),
    if_neg Bool.false_ne_true]
  exact ⟨_, _, rfl, OnlyRefuses.of_sent ⟨rfl, rfl, rfl⟩⟩

/-- `recv_election_req` stops at the refusal. -/
theorem runs_recvElectionReq_of_lt {req : ElectionReq} (addressed : req.target = s.self.id)
    (stale : req.term < s.self.term) :
    Runs (recvElectionReq true req) (fun _ t ↦ OnlyRefuses (.electionReq req) s t) s := by
  have verified := verifyMacAndOwnTerm_of_le req.source addressed (Nat.le_of_lt stale)
  unfold Runs recvElectionReq
  rw [bind_of_ok verified, if_pos rfl, getSelf_bind, bind_of_ok (verifyMsgTerm_of_lt _ stale),
    if_neg Bool.false_ne_true]
  exact ⟨_, _, rfl, OnlyRefuses.of_sent ⟨rfl, rfl, rfl⟩⟩

/-- `recv_poll_req` stops at the refusal in every role but one. -/
theorem runs_recvPollReq_of_lt {req : PollReq} (addressed : req.target = s.self.id)
    (stale : req.term < s.self.term) (role : s.self.role ≠ .follower) :
    Runs (recvPollReq true req) (fun _ t ↦ OnlyRefuses (.pollReq req) s t) s := by
  have verified := verifyMacAndOwnTerm_of_le req.source addressed (Nat.le_of_lt stale)
  unfold Runs recvPollReq
  rw [bind_of_ok verified, if_pos rfl, getSelf_bind, bind_of_ok (verifyMsgTerm_of_lt _ stale),
    if_neg role]
  exact ⟨_, _, rfl, OnlyRefuses.of_sent ⟨rfl, rfl, rfl⟩⟩

/-- A follower sends its answer to the poll after the refusal. -/
theorem recvPollReq_of_lt {req : PollReq} (addressed : req.target = s.self.id)
    (stale : req.term < s.self.term) (role : s.self.role = .follower) :
    wp (recvPollReq true req) (fun _ t ↦ ∃ refusal answer,
      t.sent = s.sent ++ [refusal, answer]) s := by
  have verified := verifyMacAndOwnTerm_of_le req.source addressed (Nat.le_of_lt stale)
  unfold recvPollReq
  refine wp_bind_of_ok verified ?_
  rw [if_pos rfl, wp_bind, wp_getSelf]
  refine wp_bind_of_ok (verifyMsgTerm_of_lt _ stale) ?_
  rw [if_pos role, wp_bind, wp_lift]
  intro last _
  rw [wp_macAndSendMsg]
  exact ⟨_, _, List.append_assoc _ _ _⟩

/-- A request of an old term is refused, and nothing else happens, exactly unless it is a poll and
the peer follows. `src/enclave/enclave.cpp:38–56,670–689,769–805,826–835`. -/
theorem onlyRefuses_iff (o : Oracle) (s : EnclaveState) {req : Message} {l : Letter}
    (asks : req.asks = true) (letter : req.letter = some l) (addressed : l.target = s.self.id)
    (stale : l.term < s.self.term) :
    Runs (dispatch o req) (fun _ t ↦ OnlyRefuses req s t) s ↔
      ¬(req.isPoll = true ∧ s.self.role = .follower) := by
  cases req with
  | appendReq req =>
    obtain rfl := Option.some.inj letter
    have refused := runs_recvAppendReq_of_lt (o := o) addressed stale
    exact iff_of_true refused (by simp [Message.isPoll])
  | electionReq req =>
    obtain rfl := Option.some.inj letter
    have refused := runs_recvElectionReq_of_lt addressed stale
    exact iff_of_true refused (by simp [Message.isPoll])
  | pollReq req =>
    obtain rfl := Option.some.inj letter
    by_cases role : s.self.role = .follower
    · refine iff_of_false ?_ (by simp [Message.isPoll, role])
      rintro ⟨_, t, returns, refused⟩
      obtain ⟨refusal, answer, twice⟩ := recvPollReq_of_lt addressed stale role _ t returns
      obtain ⟨rsp, once, -⟩ := refused.sent
      rw [once] at twice
      have := congrArg List.length (List.append_cancel_left twice)
      simp at this
    · have refused := runs_recvPollReq_of_lt addressed stale role
      exact iff_of_true refused (by simp [role])
  | commandReq | commandRsp | appendRsp | pollRsp | electionRsp | logReq | logRsp =>
    exact nomatch asks

end

/-- A follower of the second term whose timeout has passed. -/
def waiting : EnclaveState where
  self := { Peer.zero with id := ⟨0, 12⟩, log := [getEmptyEntry], term := 2, now := 10000 }
  sent := []
  returned := []
  drawn := []

/-- It refuses entries of the first term. -/
theorem waiting_onlyRefuses : ∃ req : AppendReq, req.term < waiting.self.term ∧
    Runs (dispatch silent (.appendReq req)) (fun _ t ↦ OnlyRefuses (.appendReq req) waiting t)
      waiting := by
  refine ⟨⟨⟨0, 12⟩, ⟨0, 11⟩, 1, 0, 0, 0, []⟩, by decide, ?_⟩
  exact (onlyRefuses_iff silent waiting rfl rfl rfl (by decide)).mpr (by decide)

/-- It refuses a poll of the first term, and then grants it. -/
theorem not_onlyRefuses : ¬ ∀ (o : Oracle) (s : EnclaveState) (req : Message) (l : Letter),
    req.asks = true → req.letter = some l → l.target = s.self.id → l.term < s.self.term →
    Runs (dispatch o req) (fun _ t ↦ OnlyRefuses req s t) s := by
  intro claim
  let req : PollReq := ⟨⟨0, 12⟩, ⟨0, 11⟩, 1, 0, 0⟩
  obtain ⟨_, t, returns, refused⟩ := claim silent waiting (.pollReq req) ⟨⟨0, 11⟩, ⟨0, 12⟩, 1⟩ rfl rfl
    rfl (by decide)
  have twice : (dispatch silent (.pollReq req) waiting).map (fun r ↦ r.2.sent) =
      .ok [.pollRsp ⟨⟨0, 11⟩, ⟨0, 12⟩, 2, false⟩, .pollRsp ⟨⟨0, 11⟩, ⟨0, 12⟩, 2, true⟩] := by
    decide +kernel
  rw [returns] at twice
  obtain ⟨rsp, once, -⟩ := refused.sent
  have sent := Except.ok.inj twice
  dsimp only at sent
  rw [once] at sent
  exact absurd (congrArg List.length sent) (by simp [waiting])

end TrustedDcr.System
