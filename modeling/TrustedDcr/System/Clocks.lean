import TrustedDcr.Enclave.Clocks
import TrustedDcr.System.Timers

/-!
# Runs under other clocks

Two enclaves that differ in their clocks alone can be made to do the same: the clock of
the one is set so that it acts, or grants a poll, where the other does. So the worlds
that are reached do not depend on the clocks, as long as these may be set at will.
-/

namespace TrustedDcr.System
open TrustedDcr.Msg TrustedDcr.Dcr TrustedDcr.Enclave TrustedDcr.Theory

/-- The peers are the same but for their clocks. -/
def SameButClock (p q : Peer) : Prop := ∃ k, q = p.clocked k

namespace SameButClock

variable {p q r : Peer}

/-- A peer has its own clock. -/
protected theorem refl (p : Peer) : SameButClock p p := ⟨p.clock, rfl⟩

/-- Clocks can be put back. -/
protected theorem symm (h : SameButClock p q) : SameButClock q p := by
  obtain ⟨k, rfl⟩ := h
  exact ⟨p.clock, rfl⟩

/-- A clock changed twice is changed once. -/
protected theorem trans (h : SameButClock p q) (h' : SameButClock q r) : SameButClock p r := by
  obtain ⟨k, rfl⟩ := h
  obtain ⟨k', rfl⟩ := h'
  exact ⟨k', rfl⟩

end SameButClock

/-- The worlds differ in the clocks of the configured peers alone. -/
structure World.Alike (cfg : Config) (s t : World) : Prop where
  peers : ∀ p ∈ cfg.peerToEventMap, SameButClock (s.peers p) (t.peers p)
  net : t.net = s.net
  uids : t.uids = s.uids

/-! ### One call -/

/-- No call but that of the clock depends on it, except for whether polls are granted. -/
theorem clockless_body {o : Oracle} {c : Call} (other : ∀ ticks, c ≠ .setTime ticks)
    {s : EnclaveState} {k : Clock}
    (same : minTimeExceeded (s.self.clocked k) = minTimeExceeded s.self) {a : Unit}
    {e : EnclaveState} (he : c.body o s = .ok (a, e)) :
    ∃ k', c.body o (s.clocked k) = .ok (a, e.clocked k') := by
  have blind {x : Ecall Unit} (hx : Clockless x) (h : x s = .ok (a, e)) :
      ∃ k', x (s.clocked k) = .ok (a, e.clocked k') := hx.eq_ok h k
  cases c with
  | setTime ticks => exact absurd rfl (other ticks)
  | execute | getHistory => exact blind (walk_body walk_clockless o rfl) he
  | recv msg =>
    cases msg with
    | pollReq req =>
      change recvPollReq true req s = _ at he
      change ∃ k', recvPollReq true req (s.clocked k) = _
      rw [recvPollReq_eq] at he ⊢
      rw [show minTimeExceeded (s.clocked k).self = _ from same]
      exact blind (clockless_answerPoll true req _) he
    | logReq req =>
      exact blind (walk_clockless.clerical.recvLogReq (fun _ ↦ clockless_macAndSendMsg _) true req) he
    | logRsp rsp =>
      refine blind (walk_clockless.clerical.recvLogRsp (fun _ ↦ ?_) true rsp) he
      exact Blind.modify fun k _ ↦ ⟨k, rfl⟩
    | _ => exact blind (walk_body walk_clockless o rfl) he

/-- `set_time` lets the timer run out if it is past, and sets the clock. -/
theorem setTime_eq (o : Oracle) (ticks : UInt64) (s : EnclaveState) :
    setTime o ticks s = (if ticks > s.self.t && !(s.self.now == 0) then timeout o else pure ⟨⟩)
      { s with self := { s.self with now := ticks } } := rfl

/-- The clock is set and nothing happens. -/
theorem setTime_silent {o : Oracle} {ticks : UInt64} {s : EnclaveState}
    (idle : ticks ≤ s.self.t ∨ s.self.now = 0) :
    setTime o ticks s = .ok (⟨⟩, { s with self := { s.self with now := ticks } }) := by
  rw [setTime_eq, if_neg]
  · rfl
  · rcases idle with early | start
    · simp [UInt64.not_lt.mpr early]
    · simp [start]

/-- The clock is set and the peer acts. -/
theorem setTime_timeout {o : Oracle} {ticks : UInt64} {s : EnclaveState} (late : s.self.t < ticks)
    (started : s.self.now ≠ 0) :
    setTime o ticks s = timeout o { s with self := { s.self with now := ticks } } := by
  rw [setTime_eq, if_pos]
  simp [late, started]

/-! ### Setting the clock of a peer -/

/-- The last time that can be told. -/
def lastTick : UInt64 := 18446744073709551615

/-- Both timers of the peer can be outrun. -/
def Ready (p : Peer) : Prop := p.tMin < lastTick ∧ p.t < lastTick

/-- Timers that are set at the first or the last tick can be outrun. -/
theorem ready_of_set {p q : Peer} (ready : Ready p) {now : UInt64} (ends : now = 0 ∨ now = lastTick)
    (tMin : q.tMin = p.tMin ∨ q.tMin = now + deltaMinTime)
    (deadline : q.t = p.t ∨ Deadline now q.t) : Ready q := by
  have outrun {t : UInt64} (small : t.toNat < 7000) : t < lastTick := by
    rw [UInt64.lt_iff_toNat_lt]
    exact Nat.lt_trans small (by decide)
  have wraps {d : UInt64} (hd : 0 < d.toNat ∧ d.toNat < 7000) : (now + d).toNat < 7000 := by
    rw [UInt64.toNat_add]
    rcases ends with rfl | rfl
    · rw [show (0 : UInt64).toNat = 0 from rfl]
      omega
    · rw [show lastTick.toNat = 2 ^ 64 - 1 from rfl]
      omega
  refine ⟨?_, ?_⟩
  · rcases tMin with kept | set
    · exact kept ▸ ready.1
    · exact set ▸ outrun (wraps (by decide))
  · rcases deadline with kept | heartbeat | ⟨r, draw, set⟩
    · exact kept ▸ ready.2
    · exact heartbeat ▸ outrun (wraps (by decide))
    · have hr : r.toNat < 4000 := draw
      rw [set, UInt64.add_assoc]
      refine outrun (wraps ?_)
      rw [UInt64.toNat_add, show deltaMinTime.toNat = 2000 from rfl]
      omega

/-- A step is one call that returned. -/
theorem World.step_body {cfg : Config} {s t : World} {a : Action} (next : s.step cfg a = some t) :
    a.Allowed cfg s ∧ ∃ e, a.call.body a.oracle (s.enclave a.peer) = .ok (⟨⟩, e) ∧
      t = ⟨Function.update s.peers a.peer e.self, s.net ++ e.sent, s.uids ++ e.drawn⟩ := by
  unfold World.step at next
  split at next
  · next allowed =>
    split at next
    · next e he => exact ⟨allowed, e, he, (Option.some.inj next).symm⟩
    · exact absurd next (by simp)
  · exact absurd next (by simp)

/-- The world with another time at one peer. -/
def World.told (s : World) (p : Uid) (now : UInt64) : World :=
  { s with peers := Function.update s.peers p { s.peers p with now := now } }

private theorem World.enclave_told {s w : World} {p : Uid} {k : Clock}
    (same : w.peers p = (s.peers p).clocked k) (now : UInt64) :
    (w.told p now).enclave p = (s.enclave p).clocked ⟨now, k.tMin, k.t⟩ := by
  simp [World.enclave, World.told, same, EnclaveState.clocked, Peer.clocked]

section
variable {cfg : Config} {R : World → Prop}

/-- Any time can be told without anything else happening. -/
theorem World.tell (closed : ∀ w a w', R w → w.step cfg a = some w' → R w') {w : World}
    (reached : R w) {p : Uid} (hp : p ∈ cfg.peerToEventMap) (now : UInt64) : R (w.told p now) := by
  have tells {v : World} (hv : R v) (ticks : UInt64)
      (idle : ticks ≤ (v.peers p).t ∨ (v.peers p).now = 0) : R (v.told p ticks) := by
    have call : setTime silent ticks (v.enclave p) = _ := setTime_silent idle
    refine closed v ⟨p, .setTime ticks, silent⟩ _ hv ?_
    rw [World.step_eq_some (a := ⟨p, .setTime ticks, silent⟩) ⟨hp, trivial⟩ call]
    simp [World.told, World.enclave]
  -- the clock is stopped first, and what follows counts as the start
  have stopped := tells reached 0 (Or.inl UInt64.zero_le)
  have told := tells stopped now (Or.inr (by simp [World.told]))
  have same : (w.told p 0).told p now = w.told p now := by simp [World.told]
  rwa [same] at told

/-- The second world has other clocks than the first, and all its timers can be outrun. -/
structure Retimed (cfg : Config) (s w : World) : Prop extends World.Alike cfg s w where
  ready : ∀ p ∈ cfg.peerToEventMap, Ready (w.peers p)

namespace Retimed

variable {s t w : World} {p : Uid}

/-- Other times may be read in the first world. -/
theorem of_alike (alike : t.Alike cfg s) (retimed : Retimed cfg s w) : Retimed cfg t w where
  peers p hp := (alike.peers p hp).trans (retimed.peers p hp)
  net := retimed.net.trans alike.net
  uids := retimed.uids.trans alike.uids
  ready := retimed.ready

/-- The same but for another time at one peer. -/
theorem told (retimed : Retimed cfg s w) (p : Uid) (now : UInt64) :
    Retimed cfg s (w.told p now) := by
  have same (q : Uid) : ∃ now', (w.told p now).peers q = { w.peers q with now := now' } := by
    by_cases own : q = p
    · subst own
      exact ⟨now, by simp [World.told]⟩
    · exact ⟨(w.peers q).now, by simp [World.told, own]⟩
  refine ⟨⟨fun q hq ↦ ?_, retimed.net, retimed.uids⟩, fun q hq ↦ ?_⟩
  · obtain ⟨now', told⟩ := same q
    exact (retimed.peers q hq).trans ⟨⟨now', (w.peers q).tMin, (w.peers q).t⟩, told⟩
  · obtain ⟨now', told⟩ := same q
    rw [told]
    exact retimed.ready q hq

/-- A call leaves the same behind up to the clock, at a peer that is told the first or the last
time. -/
theorem advance (retimed : Retimed cfg s w) {b : Action} (allowed : b.Allowed cfg w)
    (ends : b.call.clock (w.peers b.peer).now = 0 ∨ b.call.clock (w.peers b.peer).now = lastTick)
    {e : EnclaveState} {k : Clock}
    (call : b.call.body b.oracle (w.enclave b.peer) = .ok (⟨⟩, e.clocked k)) :
    ∃ w', w.step cfg b = some w' ∧ Retimed cfg
      ⟨Function.update s.peers b.peer e.self, s.net ++ e.sent, s.uids ++ e.drawn⟩ w' := by
  have next := World.step_eq_some allowed call
  refine ⟨_, next, ⟨fun q hq ↦ ?_, congrArg (· ++ e.sent) retimed.net,
    congrArg (· ++ e.drawn) retimed.uids⟩, fun q hq ↦ ?_⟩
  · by_cases own : q = b.peer
    · subst own
      simp only [Function.update_self]
      exact ⟨k, rfl⟩
    · simp only [Function.update_of_ne own]
      exact retimed.peers q hq
  · by_cases own : q = b.peer
    · subst own
      obtain ⟨-, tMin, deadline, -⟩ := World.step_times next
      exact ready_of_set (retimed.ready _ hq) ends tMin deadline
    · simp only [Function.update_of_ne own]
      exact retimed.ready q hq

/-- What may be called is the same. -/
theorem allowed (retimed : Retimed cfg s w) {a : Action} (allowed : a.Allowed cfg s) :
    a.Allowed cfg w := by
  refine ⟨allowed.1, ?_⟩
  rw [retimed.net]
  exact allowed.2

/-- Setting the clock, where the peer acts, or where it does not. -/
theorem setTime (closed : ∀ w a w', R w → w.step cfg a = some w' → R w')
    (retimed : Retimed cfg s w) (reached : R w) {ticks : UInt64} {o : Oracle}
    (next : s.step cfg ⟨p, .setTime ticks, o⟩ = some t) : ∃ w', R w' ∧ Retimed cfg t w' := by
  obtain ⟨⟨hp, -⟩, e, call, rfl⟩ := World.step_body next
  change Enclave.setTime o ticks (s.enclave p) = _ at call
  obtain ⟨k, same⟩ := retimed.peers p hp
  by_cases acts : (s.peers p).t < ticks ∧ (s.peers p).now ≠ 0
  · -- the other clock is started, and then runs to the end
    rw [setTime_timeout acts.1 acts.2] at call
    obtain ⟨k', other⟩ := Blind.eq_ok walk_clockless.timeout call ⟨lastTick, k.tMin, k.t⟩
    have late : ((w.told p 1).enclave p).self.t < lastTick :=
      ((retimed.told p 1).ready p hp).2
    have started : ((w.told p 1).enclave p).self.now ≠ 0 := by simp [World.enclave, World.told]
    have call' : Enclave.setTime o lastTick ((w.told p 1).enclave p) = .ok (⟨⟩, e.clocked k') := by
      rw [setTime_timeout late started, World.enclave_told same]
      exact other
    obtain ⟨w', next', retimed'⟩ := (retimed.told p 1).advance (b := ⟨p, .setTime lastTick, o⟩)
      ⟨hp, trivial⟩ (Or.inr rfl) call'
    exact ⟨w', closed _ _ _ (World.tell closed reached hp 1) next', retimed'⟩
  · have idle : ticks ≤ (s.peers p).t ∨ (s.peers p).now = 0 := by
      rw [← UInt64.not_lt]
      tauto
    rw [setTime_silent idle] at call
    cases call
    refine ⟨w, reached, ⟨fun q hq ↦ ?_, by simp [World.enclave, retimed.net],
      by simp [World.enclave, retimed.uids]⟩, retimed.ready⟩
    by_cases own : q = p
    · subst own
      simp only [Function.update_self]
      exact ⟨k, same⟩
    · simp only [Function.update_of_ne own]
      exact retimed.peers q hq

/-- Any other call, after which the clock of its peer is at the first or the last tick. -/
theorem call (closed : ∀ w a w', R w → w.step cfg a = some w' → R w') (retimed : Retimed cfg s w)
    (reached : R w) {c : Call} {o : Oracle} (other : ∀ ticks, c ≠ .setTime ticks)
    (next : s.step cfg ⟨p, c, o⟩ = some t) : ∃ w', R w' ∧ Retimed cfg t w' := by
  obtain ⟨allowed, e, call, rfl⟩ := World.step_body next
  obtain ⟨k, same⟩ := retimed.peers p allowed.1
  have late : k.tMin < lastTick := by
    have ready := (retimed.ready p allowed.1).1
    rwa [same] at ready
  -- the time decides whether a poll is granted
  obtain ⟨now, ends, grants⟩ : ∃ now : UInt64, (now = 0 ∨ now = lastTick) ∧
      minTimeExceeded ((s.peers p).clocked ⟨now, k.tMin, k.t⟩) = minTimeExceeded (s.peers p) := by
    cases minTimeExceeded (s.peers p) with
    | false => exact ⟨0, Or.inl rfl, by simp [minTimeExceeded, Peer.clocked]⟩
    | true => exact ⟨lastTick, Or.inr rfl, by simp [minTimeExceeded, Peer.clocked, late]⟩
  obtain ⟨k', call'⟩ := clockless_body other (k := ⟨now, k.tMin, k.t⟩) grants call
  rw [← World.enclave_told same] at call'
  have clock : c.clock ((w.told p now).peers p).now = now := by
    cases c with
    | setTime ticks => exact absurd rfl (other ticks)
    | recv | execute | getHistory => simp [Call.clock, World.told]
  have ends' : c.clock ((w.told p now).peers p).now = 0 ∨
      c.clock ((w.told p now).peers p).now = lastTick := by rwa [clock]
  obtain ⟨w', next', retimed'⟩ := (retimed.told p now).advance (b := ⟨p, c, o⟩)
    ((retimed.told p now).allowed allowed) ends' call'
  exact ⟨w', closed _ _ _ (World.tell closed reached allowed.1 now) next', retimed'⟩

/-- Whatever a peer does under one clock, it can do under the other. -/
theorem step (closed : ∀ w a w', R w → w.step cfg a = some w' → R w') (retimed : Retimed cfg s w)
    (reached : R w) {a : Action} (next : s.step cfg a = some t) : ∃ w', R w' ∧ Retimed cfg t w' := by
  obtain ⟨p, c, o⟩ := a
  cases c with
  | setTime ticks => exact retimed.setTime closed reached next
  | recv msg => exact retimed.call closed reached (by simp) next
  | execute event => exact retimed.call closed reached (by simp) next
  | getHistory => exact retimed.call closed reached (by simp) next

/-- The peers that a run starts with. -/
theorem initial (cfg : Config) : Retimed cfg (World.initial cfg) (World.initial cfg) := by
  refine ⟨⟨fun p _ ↦ .refl _, rfl, rfl⟩, fun p _ ↦ ?_⟩
  obtain ⟨-, tMin, deadline⟩ := timed_configured cfg p
  exact ready_of_set (p := Peer.zero) ⟨by decide, by decide⟩ (Or.inl rfl) tMin deadline

/-- So whatever a run reaches is reached under clocks that are told the right times. -/
theorem run (closed : ∀ w a w', R w → w.step cfg a = some w' → R w')
    (start : R (World.initial cfg)) {h : Hist} (run : Run cfg anyStep h s) :
    ∃ w, R w ∧ Retimed cfg s w := by
  induction run with
  | initial => exact ⟨_, start, initial cfg⟩
  | step _ _ next ih =>
    obtain ⟨w, reached, retimed⟩ := ih
    exact retimed.step closed reached next

end Retimed

end

end TrustedDcr.System
