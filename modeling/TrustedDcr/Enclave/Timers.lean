import TrustedDcr.Enclave.Bounds
import TrustedDcr.Enclave.Following
import TrustedDcr.Enclave.Walk

/-!
# What calls do to the timers

`t_min` is the time before which no poll is granted, `t` the time after which a peer
acts on its own. Both are set by `update_timeout` only, from the clock, and only
`recv_poll_req` grants polls. Every other part of a call moves the timers along
`Winds`.
-/

namespace TrustedDcr.Msg

/-- A response that grants a poll. -/
def Message.grantsPoll : Message → Bool
  | .pollRsp rsp => rsp.success
  | _ => false

end TrustedDcr.Msg

namespace TrustedDcr.Enclave
open TrustedDcr.Msg TrustedDcr.Dcr TrustedDcr.Theory

/-- Where `update_timeout` can set `t`: at the heartbeat, or at random after the least time. -/
def Deadline (now t : UInt64) : Prop :=
  t = now + deltaHeartbeat ∨ ∃ r < deltaMaxTime, t = now + deltaMinTime + r

/-- The timers are kept or set anew, and no message grants a poll. -/
structure Winds (s t : EnclaveState) : Prop where
  now : t.self.now = s.self.now
  tMin : t.self.tMin = s.self.tMin ∨ t.self.tMin = s.self.now + deltaMinTime
  deadline : t.self.t = s.self.t ∨ Deadline s.self.now t.self.t
  sent : ∃ ms, t.sent = s.sent ++ ms ∧ ∀ m ∈ ms, m.grantsPoll = false

namespace Winds

variable {s t u : EnclaveState}

/-- Where the timers are kept. -/
theorem of_clock {ms : List Message} (clock : t.self.clock = s.self.clock)
    (sent : t.sent = s.sent ++ ms) (plain : ∀ m ∈ ms, m.grantsPoll = false) : Winds s t := by
  simp only [Peer.clock, Clock.mk.injEq] at clock
  obtain ⟨now, tMin, deadline⟩ := clock
  exact ⟨now, Or.inl tMin, Or.inl deadline, ms, sent, plain⟩

/-- Timers wound twice are wound. -/
protected theorem trans (st : Winds s t) (tu : Winds t u) : Winds s u where
  now := tu.now.trans st.now
  tMin := by
    rcases tu.tMin with tMin | tMin
    · rw [tMin]
      exact st.tMin
    · exact Or.inr (st.now ▸ tMin)
  deadline := by
    rcases tu.deadline with deadline | deadline
    · rw [deadline]
      exact st.deadline
    · exact Or.inr (st.now ▸ deadline)
  sent := by
    obtain ⟨ms, hms, plain⟩ := st.sent
    obtain ⟨ns, hns, plain'⟩ := tu.sent
    refine ⟨ms ++ ns, by rw [hns, hms, List.append_assoc], fun m hm ↦ ?_⟩
    exact (List.mem_append.mp hm).elim (plain m) (plain' m)

instance : Std.Refl Winds :=
  ⟨fun s ↦ of_clock rfl (List.append_nil s.sent).symm (List.forall_mem_nil _)⟩
instance : IsTrans EnclaveState Winds := ⟨fun _ _ _ ↦ Winds.trans⟩

end Winds

/-! ### The helpers -/

section
variable {o : Oracle}

/-- Sending what grants no poll leaves the timers alone. -/
theorem winds_macAndSendMsg {msg : Message} (h : msg.grantsPoll = false) :
    Along Winds (macAndSendMsg msg) := fun _ ↦
  wp_macAndSendMsg.mpr (.of_clock rfl rfl fun _ hm ↦ List.mem_singleton.mp hm ▸ h)

/-- The one place that sets the timers. -/
theorem winds_updateTimeout (o : Oracle) : Along Winds (updateTimeout o) := by
  intro s
  unfold updateTimeout
  rw [wp_modifySelf]
  have quiet : ∃ ms, s.sent = s.sent ++ ms ∧ ∀ m ∈ ms, m.grantsPoll = false :=
    ⟨[], (List.append_nil _).symm, List.forall_mem_nil _⟩
  split
  · exact ⟨rfl, Or.inl rfl, Or.inr (Or.inl rfl), quiet⟩
  · have draw : o.timeout.toUInt64 % deltaMaxTime < deltaMaxTime :=
      UInt64.mod_lt _ (by decide)
    exact ⟨rfl, Or.inr rfl, Or.inr (Or.inr ⟨_, draw, rfl⟩), quiet⟩

/-- Whatever is assigned elsewhere, the timers are set in that place. -/
theorem walk_winds : Walk (fun _ ↦ True) fun _ x ↦ Along Winds x := by
  apply walk_along
  case assign =>
    intro g _ clock s
    refine wp_modifySelf.mpr (.of_clock (clock s.self) ?_ (List.forall_mem_nil _))
    exact (List.append_nil s.sent).symm
  case updateTimeout => exact winds_updateTimeout
  case draw => exact fun s _ ↦ .of_clock rfl (List.append_nil s.sent).symm (List.forall_mem_nil _)
  case broadcast =>
    intro msgs ordinary s
    refine wp_macAndBroadcastMsgs.mpr (.of_clock rfl rfl fun m hm ↦ ?_)
    have plain := ordinary m hm
    unfold Message.ordinary at plain
    unfold Message.grantsPoll
    cases m with
    | pollRsp rsp => simpa using plain
    | _ => rfl

/-! ### The calls -/

/-- The timers are kept, and a poll is granted by a follower whose least time has passed. -/
structure Waits (s t : EnclaveState) : Prop where
  clock : t.self.clock = s.self.clock
  term : t.self.term = s.self.term
  grants : ∃ ms, t.sent = s.sent ++ ms ∧
    ∀ m ∈ ms, m.grantsPoll = true → s.self.tMin < s.self.now ∧ s.self.role = .follower

/-- `recv_poll_req` for a verified request. `src/enclave/enclave.cpp:774–804`. -/
theorem waits_answerPoll (req : PollReq) (s : EnclaveState) : wp (do
    let self ← getSelf
    let _ ← verifyMsgTerm req.term <| .pollRsp
      { target := req.source, source := self.id, term := self.term, success := false }
    if self.role = .follower then
      let last ← self.lastEntry
      macAndSendMsg <| .pollRsp
        { target := req.source, source := self.id, term := self.term,
          success := logNotAhead last req.lastTerm req.lastIndex && minTimeExceeded self })
    (fun _ t ↦ Waits s t) s := by
  rw [wp_bind, wp_getSelf, wp_bind]
  refine wp_mono (wp_and (verifyMsgTerm_self _ _ s) (walk_winds.verifyMsgTerm _ rfl s)) ?_
  rintro _ t ⟨same, -, -, -, ms, hms, plain⟩
  have clock := congrArg Peer.clock same
  have term := congrArg Peer.term same
  rw [wp_ite]
  constructor
  · intro follows
    rw [wp_bind, wp_lift]
    intro last _
    refine wp_macAndSendMsg.mpr ⟨clock, term, ms ++ [_], by rw [hms, List.append_assoc], ?_⟩
    intro m hm grants
    rcases List.mem_append.mp hm with hm | hm
    · exact absurd grants (by simp [plain m hm])
    · obtain rfl := List.mem_singleton.mp hm
      simp only [Message.grantsPoll, Bool.and_eq_true] at grants
      exact ⟨of_decide_eq_true grants.2, follows⟩
  · exact fun _ ↦ wp_pure.mpr
      ⟨clock, term, ms, hms, fun m hm grants ↦ absurd grants (by simp [plain m hm])⟩

/-- A request to poll leaves the timers, and is granted by whoever follows, or has just entered the
term of the request. -/
theorem recvPollReq_grants (req : PollReq) (s : EnclaveState) :
    wp (recvPollReq true req) (fun _ t ↦ t.self.clock = s.self.clock ∧
      ∃ ms, t.sent = s.sent ++ ms ∧ ∀ m ∈ ms, m.grantsPoll = true →
        s.self.tMin < s.self.now ∧ (s.self.role = .follower ∨ s.self.term < t.self.term)) s := by
  unfold recvPollReq
  apply wp_verified
  · exact fun _ ↦ ⟨rfl, [], (List.append_nil _).symm, List.forall_mem_nil _⟩
  · intro _ later
    refine wp_mono (waits_answerPoll req _) ?_
    rintro _ t ⟨clock, term, ms, sent, grants⟩
    refine ⟨clock, ms, sent, fun m hm h ↦ ⟨(grants m hm h).1, Or.inr ?_⟩⟩
    rw [term]
    exact later
  · intro _ _
    refine wp_mono (waits_answerPoll req s) ?_
    rintro _ t ⟨clock, term, ms, sent, grants⟩
    exact ⟨clock, ms, sent, fun m hm h ↦ ⟨(grants m hm h).1, Or.inl (grants m hm h).2⟩⟩

/-- The clock is set before anything else. -/
theorem winds_setTime (ticks : UInt64) (s : EnclaveState) :
    wp (setTime o ticks) (fun _ t ↦ Winds { s with self := { s.self with now := ticks } } t) s := by
  unfold setTime
  rw [wp_bind, wp_getSelf, wp_bind, wp_modifySelf, wp_bind, wp_getSelf, wp_ite]
  exact ⟨fun _ ↦ walk_winds.timeout _, fun _ ↦ wp_pure.mpr (Std.Refl.refl _)⟩

/-- Every other member has been sent a letter. -/
def Speaks (p : Peer) (t : EnclaveState) : Prop := ∀ q ∈ otherMembers p, ∃ m ∈ t.sent,
  ∃ l, m.letter = some l ∧ l.source = p.id ∧ l.target = q

/-- What comes later sends more. -/
theorem Speaks.mono {p : Peer} {t u : EnclaveState} (h : Speaks p t) (later : Winds t u) :
    Speaks p u := by
  intro q hq
  obtain ⟨m, hm, l, letter⟩ := h q hq
  obtain ⟨ms, sent, -⟩ := later.sent
  exact ⟨m, sent ▸ List.mem_append_left _ hm, l, letter⟩

/-- A broadcast to the other members. -/
theorem speaks_broadcast {p : Peer} {f : Uid → Message}
    (letter : ∀ q, ∃ l, (f q).letter = some l ∧ l.source = p.id ∧ l.target = q)
    (t : EnclaveState) :
    wp (macAndBroadcastMsgs ((otherMembers p).map f)) (fun _ u ↦ Speaks p u) t :=
  wp_macAndBroadcastMsgs.mpr fun q hq ↦
    ⟨f q, List.mem_append_right _ (List.mem_map_of_mem hq), letter q⟩

/-- If there are other members. -/
theorem speaks_unless {p : Peer} {x : Ecall Unit} {t : EnclaveState}
    (h : wp x (fun _ u ↦ Speaks p u) t) :
    wp (if otherMembers p ≠ [] then x else pure ⟨⟩) (fun _ u ↦ Speaks p u) t := by
  refine wp_ite.mpr ⟨fun _ ↦ h, fun none ↦ wp_pure.mpr fun q hq ↦ ?_⟩
  rw [not_not.mp none] at hq
  exact nomatch hq

private theorem speaks_heartbeat (t : EnclaveState) :
    wp heartbeat (fun _ u ↦ Speaks t.self u) t := by
  unfold heartbeat
  rw [wp_bind, wp_getSelf]
  refine speaks_unless ?_
  rw [wp_bind, wp_lift]
  exact fun last _ ↦ speaks_broadcast (fun q ↦ ⟨_, rfl, rfl, rfl⟩) t

private theorem speaks_startPoll (t : EnclaveState) :
    wp startPoll (fun _ u ↦ Speaks t.self u) t := by
  unfold startPoll
  rw [wp_bind, wp_getSelf]
  refine speaks_unless ?_
  rw [wp_bind, wp_lift]
  exact fun last _ ↦ speaks_broadcast (fun q ↦ ⟨_, rfl, rfl, rfl⟩) t

/-- The part of a peer that addresses its letters. -/
theorem apart_addresses : Apart fun p ↦ (p.id, otherMembers p) :=
  ⟨fun _ _ ↦ rfl, fun _ _ ↦ rfl, fun _ _ _ ↦ rfl, fun _ _ ↦ rfl, fun _ _ ↦ rfl⟩

private theorem speaks_startElection (t : EnclaveState) :
    wp (startElection o) (fun _ u ↦ Speaks t.self u) t := by
  unfold startElection
  refine wp_bind_along apart_addresses.updateTimeout fun _ u hu ↦
    wp_bind_modifySelf fun v hv ↦ wp_bind_modifySelf fun w hw ↦ ?_
  have same : (w.self.id, otherMembers w.self) = (t.self.id, otherMembers t.self) := by
    rw [hw, hv]
    exact hu
  simp only [Prod.mk.injEq] at same
  rw [wp_bind, wp_getSelf, wp_bind, wp_lift, same.2]
  exact fun last _ ↦ speaks_broadcast (fun q ↦ ⟨_, rfl, same.1, rfl⟩) w

/-- A peer whose deadline has passed speaks to all other members, whatever its role. -/
theorem speaks_timeout (t : EnclaveState) : wp (timeout o) (fun _ u ↦ Speaks t.self u) t := by
  unfold timeout
  rw [wp_bind, wp_getSelf]
  cases role : t.self.role with
  | leader =>
    rw [if_pos rfl]
    unfold leaderTimeout
    rw [wp_bind, wp_bind]
    refine wp_mono (speaks_heartbeat t) fun _ u hu ↦ ?_
    refine wp_bind_along walk_winds.clerical.retryRequests fun _ v hv ↦ ?_
    refine wp_mono (winds_updateTimeout o v) fun _ w hw ↦ ?_
    refine wp_mono (Q := fun _ x ↦ Winds w x) ?_ fun _ x hx ↦ ((hu.mono hv).mono hw).mono hx
    exact (along_getSelf.bind fun _ ↦ Along.when walk_winds.startElection <| along_getSelf.bind fun _ ↦
      Along.ite ((winds_updateTimeout o).bind fun _ ↦ walk_winds.startPoll) (Along.pure _)) w
  | candidate =>
    rw [if_neg (by simp), wp_bind, wp_getSelf, if_pos role, wp_bind]
    refine wp_mono (speaks_startElection t) fun _ u hu ↦ ?_
    refine wp_mono (Q := fun _ x ↦ Winds u x) ?_ fun _ x hx ↦ hu.mono hx
    exact (along_getSelf.bind fun _ ↦
      Along.ite ((winds_updateTimeout o).bind fun _ ↦ walk_winds.startPoll) (Along.pure _)) u
  | follower =>
    rw [if_neg (by simp), wp_bind, wp_getSelf, if_neg (by simp [role]), wp_bind, wp_getSelf,
      if_pos role]
    refine wp_bind_along apart_addresses.updateTimeout fun _ u hu ↦
      wp_mono (speaks_startPoll u) fun _ v hv ↦ ?_
    simp only [Same, Prod.mk.injEq] at hu
    unfold Speaks
    rwa [← hu.1, ← hu.2]

/-- The timeout comes when the clock has passed the deadline, unless it has just been started. -/
theorem speaks_setTime {ticks : UInt64} {s : EnclaveState} (started : s.self.now ≠ 0)
    (late : s.self.t < ticks) : wp (setTime o ticks) (fun _ t ↦ Speaks s.self t) s := by
  unfold setTime
  rw [wp_bind, wp_getSelf]
  refine wp_bind_modifySelf fun t ht ↦ ?_
  rw [wp_bind, wp_getSelf, if_pos (by simpa [ht, started] using late)]
  refine wp_mono (speaks_timeout t) fun _ u hu ↦ ?_
  rw [ht] at hu
  exact hu

/-- A request that renews the timers of a follower: of its leader, or of a later term. -/
def Peer.renewedBy (p : Peer) (req : AppendReq) : Bool :=
  p.processes req && (decide (p.term < req.term) || uidsEqual req.source p.leader)

/-- It lets the least time begin again. -/
theorem tMin_recvAppendReq {req : AppendReq} {s : EnclaveState} (renewed : s.self.renewedBy req) :
    wp (recvAppendReq o true req) (fun _ t ↦ t.self.tMin = s.self.now + deltaMinTime) s := by
  unfold recvAppendReq
  have body {u : EnclaveState} (follows : u.self.role = .follower) (term : u.self.term = req.term)
      (leader : u.self.leader = req.source) : wp (do
      let self ← getSelf
      let verified ← verifyMsgTerm req.term <| .appendRsp
        { target := req.source, source := self.id, term := self.term, prevTerm := 0,
          prevIndex := 0, success := false, lastIndex := 0 }
      if verified then
        if self.role = .follower then
          if uidsEqual req.source self.leader then updateTimeout o
          if !self.termAndIndexExistInLog req.prevTerm req.prevIndex then
            macAndSendMsg <| .appendRsp
              { target := req.source, source := self.id, term := self.term,
                prevTerm := req.prevTerm, prevIndex := req.prevIndex, success := false,
                lastIndex := 2 ^ 32 - 1 }
          else acceptEntries o req) (fun _ t ↦ t.self.tMin = u.self.now + deltaMinTime) u := by
    rw [wp_bind, wp_getSelf]
    refine wp_bind_of_ok (verifyMsgTerm_of_le _ (Nat.le_of_eq term)) ?_
    rw [if_pos rfl, if_pos follows]
    refine wp_when (fun v ↦ v.self.tMin = u.self.now + deltaMinTime ∧ v.self.now = u.self.now)
      (fun _ ↦ ?_) (fun other ↦ absurd other (by simp [leader])) fun v ⟨hv, now⟩ ↦ ?_
    · exact wp_modifySelf.mpr (by simp [follows])
    · -- whatever comes then leaves the time, or sets it to the same again
      refine wp_mono (Q := fun _ t ↦ Winds v t) ?_ fun _ t ht ↦ ?_
      · exact Along.ite (winds_macAndSendMsg rfl) (walk_winds.acceptEntries req) v
      · rcases ht.tMin with kept | anew
        · exact kept.trans hv
        · rw [anew, now]
  unfold Peer.renewedBy Peer.processes at renewed
  simp only [Bool.and_eq_true, Bool.or_eq_true, uidsEqual_iff, decide_eq_true_eq,
    beq_iff_eq] at renewed
  obtain ⟨⟨addressed, follows⟩, leader⟩ := renewed
  apply wp_verified
  · exact fun other ↦ absurd addressed other
  · exact fun _ _ ↦ body rfl rfl rfl
  · intro _ current
    have same : s.self.term = req.term ∧ s.self.role = .follower :=
      follows.resolve_left (Nat.not_lt.mpr current)
    exact body same.2 same.1 (leader.resolve_left (Nat.not_lt.mpr current)).symm

end

end TrustedDcr.Enclave
