import TrustedDcr.Enclave.Timers
import TrustedDcr.System.Polls

/-!
# Timers over a run

A host sets the clock of its enclave. As long as it does not set it back, a peer
grants no poll within the least time after a request of its leader, and acts on its
own within six heartbeats of anything else.
-/

namespace TrustedDcr.System
open TrustedDcr.Msg TrustedDcr.Dcr TrustedDcr.Enclave TrustedDcr.Theory

/-! ### One call -/

namespace Call

/-- The clock during and after a call. -/
def clock (c : Call) (now : UInt64) : UInt64 :=
  match c with
  | .setTime ticks => ticks
  | _ => now

/-- The call is a request that renews the timers. -/
def renews (c : Call) (p : Peer) : Bool :=
  match c with
  | .recv (.appendReq req) => p.renewedBy req
  | _ => false

/-- What a call makes of the timers, and when it grants polls. -/
structure Times (c : Call) (s t : EnclaveState) : Prop where
  now : t.self.now = c.clock s.self.now
  tMin : t.self.tMin = s.self.tMin ∨ t.self.tMin = c.clock s.self.now + deltaMinTime
  deadline : t.self.t = s.self.t ∨ Deadline (c.clock s.self.now) t.self.t
  grants : ∃ ms, t.sent = s.sent ++ ms ∧ ∀ m ∈ ms, m.grantsPoll = true →
    s.self.tMin < s.self.now ∧ (s.self.role = .follower ∨ s.self.term < t.self.term)

variable {s t : EnclaveState}

/-- Every call but a request to poll winds the timers, under the clock it sets, and grants nothing. -/
theorem winds_body (o : Oracle) {c : Call} (other : ∀ req, c ≠ .recv (.pollReq req))
    (s : EnclaveState) : wp (c.body o)
      (fun _ t ↦ Winds { s with self := { s.self with now := c.clock s.self.now } } t) s := by
  cases c with
  | setTime ticks => exact winds_setTime ticks s
  | execute | getHistory => exact walk_body walk_winds o rfl s
  | recv msg =>
    cases msg with
    | pollReq req => exact absurd rfl (other req)
    | logReq req =>
      exact walk_winds.clerical.recvLogReq (fun _ ↦ winds_macAndSendMsg rfl) true req s
    | logRsp rsp =>
      refine walk_winds.clerical.recvLogRsp (fun part ↦ Along.modify fun t ↦ ?_) true rsp s
      exact .of_clock rfl (List.append_nil t.sent).symm (List.forall_mem_nil _)
    | _ => exact walk_body walk_winds o rfl s

/-- Every call treats the timers so. -/
theorem times_body (o : Oracle) (c : Call) (s : EnclaveState) :
    wp (c.body o) (fun _ t ↦ c.Times s t) s := by
  by_cases polled : ∃ req, c = .recv (.pollReq req)
  · obtain ⟨req, rfl⟩ := polled
    refine wp_mono (recvPollReq_grants req s) ?_
    rintro _ t ⟨clock, grants⟩
    simp only [Peer.clock, Clock.mk.injEq] at clock
    exact ⟨clock.1, Or.inl clock.2.1, Or.inl clock.2.2, grants⟩
  · refine wp_mono (winds_body o (fun req h ↦ polled ⟨req, h⟩) s) fun _ t ht ↦ ?_
    obtain ⟨ms, sent, plain⟩ := ht.sent
    exact ⟨ht.now, ht.tMin, ht.deadline, ms, sent,
      fun m hm grants ↦ absurd grants (by simp [plain m hm])⟩

/-- A call that renews the timers lets the least time begin. -/
theorem tMin_of_renews (o : Oracle) {c : Call} (renews : c.renews s.self = true) :
    wp (c.body o) (fun _ t ↦ t.self.tMin = s.self.now + deltaMinTime) s := by
  unfold Call.renews at renews
  split at renews
  · exact tMin_recvAppendReq renews
  · exact nomatch renews

end Call

/-! ### Over a run -/

/-- The host does not set the clock back, nor within six heartbeats of its last tick. -/
def ClocksForward (_ : Hist) (s : World) (a : Action) : Prop :=
  match a.call with
  | .setTime ticks => (s.peers a.peer).now ≤ ticks ∧ ticks.toNat + 6000 < 2 ^ 64
  | _ => True

instance (h : Hist) (s : World) (a : Action) : Decidable (ClocksForward h s a) := by
  unfold ClocksForward
  induction a.call using Call.casesOn <;> infer_instance

/-- The clock of a peer when a request has renewed its timers last. -/
def lastHeard (p : Uid) : Hist → Option UInt64
  | [] => none
  | (s, a) :: h =>
    if a.peer = p ∧ a.call.renews (s.peers p) = true then some (s.peers p).now else lastHeard p h

/-- The least time has begun again when a leader was heard, the deadline is at most a draw away,
and nothing of it has overflowed. -/
structure Timed (h : Hist) (s : World) (p : Uid) : Prop where
  clock : (s.peers p).now.toNat + 6000 < 2 ^ 64
  heard : ∀ c, lastHeard p h = some c →
    c ≤ (s.peers p).now ∧ c.toNat + 2000 ≤ (s.peers p).tMin.toNat
  deadline : (s.peers p).t.toNat < (s.peers p).now.toNat + 6000

section
variable {cfg : Config} {h : Hist} {s t : World} {a : Action} {p : Uid}

/-- The times that are set do not overflow. -/
theorem toNat_add_deltaMinTime {now : UInt64} (small : now.toNat + 6000 < 2 ^ 64) :
    (now + deltaMinTime).toNat = now.toNat + 2000 := by
  rw [UInt64.toNat_add, show deltaMinTime.toNat = 2000 from rfl, Nat.mod_eq_of_lt (by omega)]

private theorem toNat_lt_of_deadline {now t : UInt64} (h : Deadline now t)
    (small : now.toNat + 6000 < 2 ^ 64) : t.toNat < now.toNat + 6000 := by
  obtain rfl | ⟨r, draw, rfl⟩ := h
  · rw [UInt64.toNat_add, show deltaHeartbeat.toNat = 1000 from rfl]
    omega
  · have hr : r.toNat < 4000 := draw
    rw [UInt64.toNat_add, toNat_add_deltaMinTime small]
    omega

/-- What the step of a peer does to its timers and grants. -/
theorem World.step_times (next : s.step cfg a = some t) :
    (t.peers a.peer).now = a.call.clock (s.peers a.peer).now ∧
    ((t.peers a.peer).tMin = (s.peers a.peer).tMin ∨
      (t.peers a.peer).tMin = a.call.clock (s.peers a.peer).now + deltaMinTime) ∧
    ((t.peers a.peer).t = (s.peers a.peer).t ∨
      Deadline (a.call.clock (s.peers a.peer).now) (t.peers a.peer).t) ∧
    (∀ m ∈ sentBy s t, m.grantsPoll = true → (s.peers a.peer).tMin < (s.peers a.peer).now ∧
      ((s.peers a.peer).role = .follower ∨ (s.peers a.peer).term < (t.peers a.peer).term)) ∧
    (a.call.renews (s.peers a.peer) = true →
      (t.peers a.peer).tMin = (s.peers a.peer).now + deltaMinTime) := by
  have call : wp (a.call.body a.oracle) (fun _ e ↦ a.call.Times (s.enclave a.peer) e ∧
      (a.call.renews (s.peers a.peer) = true →
        e.self.tMin = (s.peers a.peer).now + deltaMinTime)) (s.enclave a.peer) := by
    refine wp_and (Call.times_body _ _ _) fun u e he renews ↦ ?_
    exact Call.tMin_of_renews (s := s.enclave a.peer) a.oracle renews u e he
  obtain ⟨-, e, ⟨times, renewed⟩, hpeers, hnet, -⟩ := World.step_of_wp next call
  rw [hpeers, Function.update_self]
  refine ⟨times.now, times.tMin, times.deadline, ?_, renewed⟩
  obtain ⟨ms, sent, grants⟩ := times.grants
  unfold sentBy
  rw [hnet, List.drop_left, sent]
  exact grants

private theorem Timed.step (timed : Timed h s a.peer) (forward : ClocksForward h s a)
    (next : s.step cfg a = some t) : Timed ((s, a) :: h) t a.peer := by
  obtain ⟨now, tMin, deadline, -, renewed⟩ := World.step_times next
  have clock : (s.peers a.peer).now ≤ a.call.clock (s.peers a.peer).now ∧
      (a.call.clock (s.peers a.peer).now).toNat + 6000 < 2 ^ 64 := by
    unfold ClocksForward at forward
    unfold Call.clock
    split at forward
    · exact forward
    · exact ⟨UInt64.le_refl _, timed.clock⟩
  have later : (s.peers a.peer).now.toNat ≤ (a.call.clock (s.peers a.peer).now).toNat := clock.1
  refine ⟨now ▸ clock.2, fun c heard ↦ ?_, ?_⟩
  · rw [lastHeard] at heard
    rw [now]
    split at heard
    · next renews =>
      obtain rfl := Option.some.inj heard
      refine ⟨clock.1, ?_⟩
      rw [renewed renews.2, toNat_add_deltaMinTime timed.clock]
    · obtain ⟨hc, hmin⟩ := timed.heard c heard
      refine ⟨UInt64.le_trans hc clock.1, ?_⟩
      have hc : c.toNat ≤ (s.peers a.peer).now.toNat := hc
      rcases tMin with kept | anew
      · rwa [kept]
      · rw [anew, toNat_add_deltaMinTime clock.2]
        omega
  · rw [now]
    rcases deadline with kept | anew
    · have := timed.deadline
      rw [kept]
      omega
    · exact toNat_lt_of_deadline anew clock.2

/-- Configuration stops the clock, and sets the timers from there or not at all. -/
theorem timed_configureEnclave (o : Oracle) (id : Uid) (wf : IntermediateDcrWorkflow)
    (peerMap : List (Uid × Uid)) (s : EnclaveState) :
    wp (configureEnclave o id wf peerMap) (fun _ t ↦ t.self.now = 0 ∧
      (t.self.tMin = s.self.tMin ∨ t.self.tMin = 0 + deltaMinTime) ∧
      (t.self.t = s.self.t ∨ Deadline 0 t.self.t)) s := by
  unfold configureEnclave
  refine wp_bind_modifySelf fun t ht ↦ ?_
  refine wp_mono (Q := fun _ u ↦ Winds t u) ?_ fun _ u hu ↦ ?_
  · exact walk_winds.configured t
  · have winds := And.intro hu.now (And.intro hu.tMin hu.deadline)
    rw [ht] at winds
    exact winds

/-- A configured peer has not been told the time. -/
theorem timed_configured (cfg : Config) (p : Uid) : (configured cfg p).now = 0 ∧
    ((configured cfg p).tMin = 0 ∨ (configured cfg p).tMin = 0 + deltaMinTime) ∧
    ((configured cfg p).t = 0 ∨ Deadline 0 (configured cfg p).t) := by
  obtain ⟨a, t, hrun, -⟩ := runs_configureEnclave cfg p
  have hconfigured : configured cfg p = t.self := by
    unfold configured
    rw [hrun]
  rw [hconfigured]
  exact timed_configureEnclave silent p cfg.workflow cfg.peerMap _ a t hrun

private theorem Run.timed (run : Run cfg ClocksForward h s) (p : Uid) : Timed h s p := by
  induction run with
  | initial =>
    obtain ⟨now, -, deadline⟩ := timed_configured cfg p
    change (configured cfg p).now = 0 at now
    have clock : ((World.initial cfg).peers p).now.toNat = 0 := congrArg UInt64.toNat now
    refine ⟨by omega, (fun _ h ↦ nomatch h), ?_⟩
    rw [clock]
    rcases deadline with unset | set
    · rw [show ((World.initial cfg).peers p).t = 0 from unset]
      decide
    · exact toNat_lt_of_deadline set (by decide)
  | @step h s t a run forward next ih =>
    by_cases own : a.peer = p
    · subst own
      exact ih.step forward next
    · refine ⟨?_, ?_, ?_⟩
      · rw [World.step_other next own]
        exact ih.clock
      · rw [World.step_other next own, lastHeard, if_neg fun h ↦ own h.1]
        exact ih.heard
      · rw [World.step_other next own]
        exact ih.deadline

/-- A peer that grants a poll has let the least time pass since it last heard its leader.
`src/enclave/enclave.cpp:115–146,685–690,769–805`. -/
theorem grants_after_silence (run : Run cfg ClocksForward h s) (next : s.step cfg a = some t)
    {rsp : PollRsp} (sent : .pollRsp rsp ∈ sentBy s t) (granted : rsp.success = true) {c : UInt64}
    (heard : lastHeard a.peer h = some c) : c.toNat + 2000 < (s.peers a.peer).now.toNat := by
  obtain ⟨-, -, -, grants, -⟩ := World.step_times next
  have passed : (s.peers a.peer).tMin.toNat < (s.peers a.peer).now.toNat :=
    (grants _ sent granted).1
  exact Nat.lt_of_le_of_lt ((run.timed a.peer).heard c heard).2 passed

end

/-- The follower of two peers hears its leader, and grants an old poll once the least time has
passed. -/
theorem duo_grants_after_silence : ∃ h s a t, Run duo ClocksForward h s ∧ s.step duo a = some t ∧
    lastHeard ⟨0, 12⟩ h = some 1 ∧ (1 : UInt64).toNat + 2000 < (s.peers ⟨0, 12⟩).now.toNat := by
  let heartbeat : AppendReq := ⟨⟨0, 12⟩, ⟨0, 11⟩, 1, 0, 0, 0, []⟩
  let hear : Action := ⟨⟨0, 12⟩, .recv (.appendReq heartbeat), { silent with timeout := 3000 }⟩
  let tick : Action := ⟨⟨0, 12⟩, .setTime 3000, silent⟩
  let poll : Action := ⟨⟨0, 12⟩, .recv (.pollReq ⟨⟨0, 12⟩, ⟨0, 11⟩, 0, 0, 0⟩), silent⟩
  let rsp : PollRsp := ⟨⟨0, 11⟩, ⟨0, 12⟩, 1, true⟩
  obtain ⟨r, hr, u, hu, s, hs, t, ht, forward, forward', heard, sent⟩ :
      ∃ r ∈ replay duo ClocksForward [] (.initial duo)
        [.tick ⟨0, 11⟩ 1 emptyUid, .tick ⟨0, 12⟩ 1 emptyUid, .tick ⟨0, 11⟩ 10000 emptyUid,
          .deliver ⟨0, 12⟩ 0, .deliver ⟨0, 11⟩ 1, .deliver ⟨0, 12⟩ 2, .deliver ⟨0, 11⟩ 3],
        ∃ u ∈ r.2.step duo hear, ∃ s ∈ u.step duo tick, ∃ t ∈ s.step duo poll,
          ClocksForward r.1 r.2 hear ∧ ClocksForward ((r.2, hear) :: r.1) u tick ∧
            lastHeard ⟨0, 12⟩ ((u, tick) :: (r.2, hear) :: r.1) = some 1 ∧
              .pollRsp rsp ∈ sentBy s t := by
    decide +kernel
  have run := ((run_of_replay .initial hr).step forward hu).step forward' hs
  exact ⟨_, s, poll, t, run, ht, heard, grants_after_silence run ht sent rfl heard⟩

/-- Within six heartbeats of its last tick a peer has something to say to every other member.
`src/enclave/enclave.cpp:115–129,419–459,978–1000`. -/
theorem speaks_in_time {cfg : Config} {h : Hist} {s t : World} (run : Run cfg ClocksForward h s)
    {p : Uid} {ticks : UInt64} {o : Oracle} (next : s.step cfg ⟨p, .setTime ticks, o⟩ = some t)
    (started : (s.peers p).now ≠ 0) (late : (s.peers p).now.toNat + 6000 ≤ ticks.toNat) {q : Uid}
    (hq : q ∈ cfg.cluster (cfg.clusterOf p)) (other : q ≠ p) :
    ∃ m ∈ sentBy s t, ∃ l, m.letter = some l ∧ l.source = p ∧ l.target = q := by
  have deadline : (s.peers p).t < ticks :=
    Nat.lt_of_lt_of_le (run.timed p).deadline late
  obtain ⟨allowed, e, speaks, -, hnet, -⟩ := World.step_of_wp next
    (speaks_setTime (s := s.enclave p) started deadline)
  obtain ⟨id, members, -⟩ := run.local.placed p
  have member : q ∈ otherMembers (s.peers p) := by
    refine mem_otherMembers.mpr ⟨?_, ?_⟩
    · rw [show (s.peers p).clusterMembers = _ from members]
      exact List.mem_toFinset.mp hq
    · rwa [show (s.peers p).id = p from id]
  obtain ⟨m, hm, l, letter, source, target⟩ := speaks q member
  refine ⟨m, ?_, l, letter, source.trans id, target⟩
  unfold sentBy
  rwa [hnet, List.drop_left]

/-- The first of two peers polls the second. -/
theorem duo_speaks_in_time : ∃ h s a t, Run duo ClocksForward h s ∧ s.step duo a = some t ∧
    ∃ m ∈ sentBy s t, ∃ l, m.letter = some l ∧ l.source = ⟨0, 11⟩ ∧ l.target = ⟨0, 12⟩ := by
  obtain ⟨h, s, run, ht⟩ := exists_run_of_replay duo ClocksForward [.tick ⟨0, 11⟩ 1 emptyUid]
    (fun _ s ↦ (s.peers ⟨0, 11⟩).now = 1 ∧
      (s.step duo ⟨⟨0, 11⟩, .setTime 7000, silent⟩).isSome = true)
    (by decide +kernel)
  obtain ⟨now, returns⟩ := ht
  obtain ⟨t, next⟩ := Option.isSome_iff_exists.mp returns
  have speaks := speaks_in_time run next (by simp [now]) (by rw [now]; decide)
    (show (⟨0, 12⟩ : Uid) ∈ duo.cluster (duo.clusterOf ⟨0, 11⟩) by decide +kernel) (by decide)
  exact ⟨h, s, _, t, run, next, speaks⟩

end TrustedDcr.System
