import TrustedDcr.Daemon.Configuration
import TrustedDcr.System.Hosts

/-!
# Daemons on a network

The daemons start without a configuration; a client configures them in any order, and
messages travel as containers. What they reach once all of them are configured is what
the enclaves reach in the runs, which start configured and pass messages directly, but
for the times their clocks show.
-/

namespace TrustedDcr.Daemon
open TrustedDcr.Msg TrustedDcr.Enclave TrustedDcr.System

/-- A call of a daemon by a client, by another daemon or by its own timer; `unset` is what the
validation of a message finds uninitialised. `src/sgx_daemon/daemon.h:15–32`. -/
inductive Rpc (Str : Type) where
  | config (ticks : UInt64)
  | setTime (ticks : UInt64)
  | send (cont : Container Str) (unset : Unset)
  | execute (event : WireUid)
  | history

/-- One such call at one daemon. -/
structure RpcAction (Str : Type) where
  peer : Uid
  rpc : Rpc Str
  oracle : Oracle

/-- The enclaves of all daemons, which of them are configured, every container ever sent and every
identifier ever generated. -/
structure Network (Str : Type) where
  peers : Uid → Peer
  configured : List Uid
  wire : List (Container Str)
  uids : List Uid

section
variable {Str : Type} (P : Protobuf Str) (cmac : List UInt8 → CmacTag) (d : Deployment)

/-- What the `send_*` calls of the enclave hand to the network.
`src/sgx_daemon/ocall.cpp:9–113`. -/
def onWire (msg : Message) : Container Str := pack P msg (msg.tag cmac)

/-- What the call runs inside the enclave. `src/sgx_daemon/daemon.cpp:67–200`. -/
def Rpc.body (self : Uid) (o : Oracle) : Rpc Str → Ecall Unit
  | .config ticks => configureFrom o (d.message self) ticks
  | .setTime ticks => Enclave.setTime o ticks
  | .send cont unset => sendToEnclave P o cmac unset cont
  | .execute event => Enclave.execute o event.fromWire
  | .history => Enclave.getHistory

/-- Each daemon is configured once, before it is called. The network delivers what was sent, and no
status left uninitialised reads as a failure. -/
def RpcAction.Allowed (n : Network Str) (a : RpcAction Str) : Prop :=
  a.peer ∈ d.config.peerToEventMap ∧
    match a.rpc with
    | .config _ => a.peer ∉ n.configured
    | .setTime _ => True
    | .send cont unset => a.peer ∈ n.configured ∧ cont ∈ n.wire ∧ unset.success = true
    | .execute _ | .history => a.peer ∈ n.configured

/-- Who is configured after a call. -/
def RpcAction.configures (a : RpcAction Str) (configured : List Uid) : List Uid :=
  match a.rpc with
  | .config _ => a.peer :: configured
  | _ => configured

namespace Network

/-- The daemons as they start. -/
def initial : Network Str := ⟨fun _ ↦ Peer.zero, [], [], []⟩

/-- The result of one call, if it has one. -/
def step (n : Network Str) (a : RpcAction Str) : Option (Network Str) :=
  match a.rpc.body P cmac d a.peer a.oracle ⟨n.peers a.peer, [], [], []⟩ with
  | .ok (_, e) => some
      { peers := Function.update n.peers a.peer e.self
        configured := a.configures n.configured
        wire := n.wire ++ e.sent.map (onWire P cmac)
        uids := n.uids ++ e.drawn }
  | .error _ => none

/-- What the daemons reach. -/
inductive Reached : Network Str → Prop
  | initial : Reached Network.initial
  | step {n n' : Network Str} {a : RpcAction Str} (reached : Reached n) (allowed : a.Allowed d n)
      (next : n.step P cmac d a = some n') : Reached n'

/-- All daemons are configured, and their enclaves and the network are in a world but for the times
that the clocks show. -/
structure Shows (n : Network Str) (s : World) : Prop where
  configured : ∀ p ∈ d.config.peerToEventMap, p ∈ n.configured
  peers : ∀ p ∈ d.config.peerToEventMap, SameButClock (n.peers p) (s.peers p)
  wire : n.wire = s.net.map (onWire P cmac)
  uids : n.uids = s.uids

/-- Configured daemons are in a world, and those that are not yet have at most heard the time. -/
structure Mirrors (n : Network Str) (s : World) : Prop where
  configured : ∀ p ∈ n.configured, n.peers p = s.peers p
  unconfigured : ∀ p ∉ n.configured, (∃ k, n.peers p = Peer.zero.clocked k) ∧
    s.peers p = System.configured d.config p
  wire : n.wire = s.net.map (onWire P cmac)
  uids : n.uids = s.uids

end Network

end

section
variable {Str : Type} {P : Protobuf Str} {cmac : List UInt8 → CmacTag} {d : Deployment}
  {n n' : Network Str} {s t : World} {a : RpcAction Str} {p : Uid}

/-- What a delivery of a container runs is what a delivery of the message runs. -/
theorem sendToEnclave_onWire (parses : P.RoundTrips) (o : Oracle) {unset : Unset}
    (status : unset.success = true) (msg : Message) :
    sendToEnclave P o cmac unset (onWire P cmac msg) = dispatch o msg := by
  unfold onWire dispatch
  rw [sendToEnclave_pack parses, (Message.validate_iff status _).mpr rfl]

/-- The messages can be told from the containers. -/
theorem onWire_injective (parses : P.RoundTrips) : Function.Injective (onWire P cmac) := by
  intro m m' same
  have arrives (m : Message) : send P (onWire P cmac m) = some (m, m.tag cmac) := by
    unfold onWire
    rw [send_pack, unpackAs_pack parses]
  have sent := arrives m
  rw [same, arrives m', Option.some.injEq, Prod.mk.injEq] at sent
  exact sent.1.symm

namespace Network

/-- A step is one call that returned. -/
theorem step_eq_some_iff : n.step P cmac d a = some n' ↔ ∃ e : EnclaveState,
    a.rpc.body P cmac d a.peer a.oracle ⟨n.peers a.peer, [], [], []⟩ = .ok (⟨⟩, e) ∧
      n' = ⟨Function.update n.peers a.peer e.self, a.configures n.configured,
        n.wire ++ e.sent.map (onWire P cmac), n.uids ++ e.drawn⟩ := by
  unfold step
  constructor
  · intro next
    split at next
    · next e run => exact ⟨e, run, (Option.some.inj next).symm⟩
    · exact absurd next (by simp)
  · rintro ⟨e, run, rfl⟩
    rw [run]

private theorem mirrors_initial : Mirrors P cmac d initial (World.initial d.config) where
  configured _ hp := absurd hp List.not_mem_nil
  unconfigured _ _ := ⟨⟨Peer.zero.clock, rfl⟩, rfl⟩
  wire := rfl
  uids := rfl

/-- The calls of configured daemons are those of the runs. -/
theorem Mirrors.call (mirrors : Mirrors P cmac d n s) (parses : P.RoundTrips)
    (allowed : a.Allowed d n) (hp : a.peer ∈ n.configured) :
    ∃ c : Call, a.rpc.body P cmac d a.peer a.oracle = c.body a.oracle ∧
      Action.Allowed d.config s ⟨a.peer, c, a.oracle⟩ := by
  obtain ⟨p, rpc, o⟩ := a
  cases rpc with
  | config ticks => exact absurd hp allowed.2
  | setTime ticks => exact ⟨.setTime ticks, rfl, allowed.1, trivial⟩
  | execute event => exact ⟨.execute event.fromWire, rfl, allowed.1, trivial⟩
  | history => exact ⟨.getHistory, rfl, allowed.1, trivial⟩
  | send cont unset =>
    obtain ⟨listed, -, sent, status⟩ := allowed
    rw [mirrors.wire] at sent
    obtain ⟨msg, hmsg, rfl⟩ := List.mem_map.mp sent
    exact ⟨.recv msg, sendToEnclave_onWire parses o status msg, listed, hmsg⟩

/-- And the other way round. -/
theorem Mirrors.rpc (mirrors : Mirrors P cmac d n s) (parses : P.RoundTrips) {b : Action}
    (allowed : b.Allowed d.config s) (hp : b.peer ∈ n.configured) :
    ∃ rpc : Rpc Str, rpc.body P cmac d b.peer b.oracle = b.call.body b.oracle ∧
      RpcAction.Allowed d n ⟨b.peer, rpc, b.oracle⟩ ∧
      RpcAction.configures ⟨b.peer, rpc, b.oracle⟩ n.configured = n.configured := by
  obtain ⟨p, c, o⟩ := b
  cases c with
  | setTime ticks => exact ⟨.setTime ticks, rfl, ⟨allowed.1, trivial⟩, rfl⟩
  | execute event => exact ⟨.execute (uidToWire event), rfl, ⟨allowed.1, hp⟩, rfl⟩
  | getHistory => exact ⟨.history, rfl, ⟨allowed.1, hp⟩, rfl⟩
  | recv msg =>
    have sent : onWire P cmac msg ∈ n.wire := by
      rw [mirrors.wire]
      exact List.mem_map_of_mem allowed.2
    exact ⟨.send (onWire P cmac msg) ⟨true, zeroTag⟩, sendToEnclave_onWire parses o rfl msg,
      ⟨allowed.1, hp, sent, rfl⟩, rfl⟩

/-- What a call at a configured daemon leaves behind. -/
theorem Mirrors.update (mirrors : Mirrors P cmac d n s) (hp : p ∈ n.configured) (e : EnclaveState) :
    Mirrors P cmac d
      ⟨Function.update n.peers p e.self, n.configured, n.wire ++ e.sent.map (onWire P cmac),
        n.uids ++ e.drawn⟩
      ⟨Function.update s.peers p e.self, s.net ++ e.sent, s.uids ++ e.drawn⟩ where
  configured q hq := by
    by_cases own : q = p
    · subst own
      simp
    · simpa [own] using mirrors.configured q hq
  unconfigured q hq := by
    have own : q ≠ p := fun h ↦ hq (h ▸ hp)
    simpa [own] using mirrors.unconfigured q hq
  wire := by simp [mirrors.wire]
  uids := by simp [mirrors.uids]

/-- What a tick before the configuration leaves behind. -/
theorem Mirrors.tick (mirrors : Mirrors P cmac d n s) (hp : p ∉ n.configured) (k : Clock) :
    Mirrors P cmac d
      { n with peers := Function.update n.peers p (Peer.zero.clocked k) } s where
  configured q hq := by
    have own : q ≠ p := fun h ↦ hp (h ▸ hq)
    simpa [own] using mirrors.configured q hq
  unconfigured q hq := by
    refine ⟨?_, (mirrors.unconfigured q hq).2⟩
    by_cases own : q = p
    · subst own
      exact ⟨k, by simp⟩
    · simpa [own] using (mirrors.unconfigured q hq).1
  wire := mirrors.wire
  uids := mirrors.uids

/-- What the configuration leaves behind. -/
theorem Mirrors.config (mirrors : Mirrors P cmac d n s) (p : Uid) (k : Clock) :
    Mirrors P cmac d
      { n with
        peers := Function.update n.peers p ((System.configured d.config p).clocked k)
        configured := p :: n.configured }
      { s with
        peers := Function.update s.peers p ((System.configured d.config p).clocked k) } where
  configured q hq := by
    by_cases own : q = p
    · subst own
      simp
    · simpa [own] using mirrors.configured q ((List.mem_cons.mp hq).resolve_left own)
  unconfigured q hq := by
    have own : q ≠ p := fun h ↦ hq (h ▸ List.mem_cons_self)
    simpa [own] using mirrors.unconfigured q fun h ↦ hq (List.mem_cons_of_mem _ h)
  wire := mirrors.wire
  uids := mirrors.uids

/-- A call of a daemon that is not configured changes at most its clock. -/
theorem Mirrors.step_unconfigured (mirrors : Mirrors P cmac d n s) (hp : a.peer ∉ n.configured)
    (allowed : a.Allowed d n) (next : n.step P cmac d a = some n') :
    ∃ t, Mirrors P cmac d n' t ∧ t.Alike d.config s := by
  obtain ⟨⟨k, fresh⟩, start⟩ := mirrors.unconfigured _ hp
  obtain ⟨e, run, rfl⟩ := step_eq_some_iff.mp next
  obtain ⟨p, rpc, o⟩ := a
  rw [fresh] at run
  cases rpc with
  | send => exact absurd allowed.2.1 hp
  | execute | history => exact absurd allowed.2 hp
  | setTime ticks =>
    obtain ⟨k', ticked⟩ := setTime_unconfigured o ticks k
    obtain ⟨⟩ := run.symm.trans ticked
    refine ⟨s, ?_, fun _ _ ↦ .refl _, rfl, rfl⟩
    simpa [RpcAction.configures, Daemon.unconfigured, EnclaveState.clocked] using mirrors.tick hp k'
  | config ticks =>
    obtain ⟨k', configured⟩ := configureFrom_unconfigured allowed.1 o ticks k
    obtain ⟨⟩ := run.symm.trans configured
    refine ⟨{ s with peers := Function.update s.peers p _ },
      by simpa [RpcAction.configures] using mirrors.config p k', fun q _ ↦ ?_, rfl, rfl⟩
    by_cases own : q = p
    · subst own
      simp only [Function.update_self]
      exact SameButClock.symm ⟨k', by rw [start]⟩
    · simp only [Function.update_of_ne own]
      exact .refl _

/-- One call: the world, as seen through any other clocks, is the same or has made a step. -/
theorem Mirrors.step (mirrors : Mirrors P cmac d n s) (parses : P.RoundTrips)
    (allowed : a.Allowed d n) (next : n.step P cmac d a = some n') :
    ∃ t, Mirrors P cmac d n' t ∧ (t.Alike d.config s ∨ ∃ b, s.step d.config b = some t) := by
  by_cases hp : a.peer ∈ n.configured
  · obtain ⟨e, run, rfl⟩ := step_eq_some_iff.mp next
    obtain ⟨c, body, permitted⟩ := mirrors.call parses allowed hp
    rw [body, mirrors.configured _ hp] at run
    have next := World.step_eq_some (a := ⟨a.peer, c, a.oracle⟩) permitted run
    have configures : a.configures n.configured = n.configured := by
      obtain ⟨p, rpc, o⟩ := a
      cases rpc with
      | config ticks => exact absurd hp allowed.2
      | setTime | send | execute | history => rfl
    rw [configures]
    exact ⟨_, mirrors.update hp e, Or.inr ⟨_, next⟩⟩
  · obtain ⟨t, mirrors', alike⟩ := mirrors.step_unconfigured hp allowed next
    exact ⟨t, mirrors', Or.inl alike⟩

/-- Whatever the daemons reach, the enclaves reach in a run under other clocks. -/
theorem Reached.retimed (parses : P.RoundTrips) (reached : Reached P cmac d n) :
    ∃ s, Mirrors P cmac d n s ∧ ∃ w, (∃ h, Run d.config anyStep h w) ∧ Retimed d.config s w := by
  induction reached with
  | initial => exact ⟨_, mirrors_initial, _, ⟨[], .initial⟩, .initial d.config⟩
  | step _ allowed next ih =>
    obtain ⟨s, mirrors, w, ran, retimed⟩ := ih
    obtain ⟨t, mirrors', alike | ⟨b, next'⟩⟩ := mirrors.step parses allowed next
    · exact ⟨t, mirrors', w, ran, retimed.of_alike alike⟩
    · refine ⟨t, mirrors', retimed.step (R := fun w ↦ ∃ h, Run d.config anyStep h w) ?_ ran next'⟩
      rintro w b w' ⟨h, run⟩ next
      exact ⟨_, run.step trivial next⟩

/-- All daemons can be configured, one after the other. -/
theorem exists_configured (P : Protobuf Str) (cmac : List UInt8 → CmacTag) (l : List Uid)
    (listed : ∀ p ∈ l, p ∈ d.config.peerToEventMap) :
    ∃ n, Reached P cmac d n ∧ (∀ p ∈ l, p ∈ n.configured) ∧
      (∀ p ∉ n.configured, n.peers p = Peer.zero) ∧ Mirrors P cmac d n (World.initial d.config) := by
  induction l with
  | nil => exact ⟨_, .initial, (fun _ hp ↦ absurd hp List.not_mem_nil), (fun _ _ ↦ rfl),
      mirrors_initial⟩
  | cons p l ih =>
    obtain ⟨hp, listed⟩ := List.forall_mem_cons.mp listed
    obtain ⟨n, reached, configured, fresh, mirrors⟩ := ih listed
    by_cases already : p ∈ n.configured
    · exact ⟨n, reached, List.forall_mem_cons.mpr ⟨already, configured⟩, fresh, mirrors⟩
    · have run := configureFrom_started hp silent
      have mirrors' := mirrors.config p (System.configured d.config p).clock
      rw [Peer.clocked_clock, show (World.initial d.config).peers = System.configured d.config from
        rfl, Function.update_eq_self] at mirrors'
      refine ⟨⟨Function.update n.peers p (System.configured d.config p), p :: n.configured, n.wire,
        n.uids⟩, reached.step (a := ⟨p, .config 0, silent⟩) ⟨hp, already⟩
          (step_eq_some_iff.mpr ⟨⟨System.configured d.config p, [], [], []⟩, ?_, by
            simp [RpcAction.configures]⟩), ?_, ?_, mirrors'⟩
      · rw [fresh p already]
        exact run
      · exact List.forall_mem_cons.mpr ⟨List.mem_cons_self, fun q hq ↦
          List.mem_cons_of_mem _ (configured q hq)⟩
      · intro q hq
        have own : q ≠ p := fun h ↦ hq (h ▸ List.mem_cons_self)
        refine (Function.update_of_ne own _ _).trans (fresh q fun h ↦ hq ?_)
        exact List.mem_cons_of_mem _ h

/-- Every step of a run is a call of a configured daemon. -/
theorem Mirrors.step_of_world (mirrors : Mirrors P cmac d n s) (parses : P.RoundTrips) {b : Action}
    (hp : b.peer ∈ n.configured) (next : s.step d.config b = some t) :
    ∃ (a : RpcAction Str) (n' : Network Str), a.Allowed d n ∧ n.step P cmac d a = some n' ∧
      n'.configured = n.configured ∧ Mirrors P cmac d n' t := by
  obtain ⟨allowed, e, run, rfl⟩ := World.step_body next
  obtain ⟨rpc, body, permitted, configures⟩ := mirrors.rpc parses allowed hp
  refine ⟨⟨b.peer, rpc, b.oracle⟩, _, permitted, step_eq_some_iff.mpr ⟨e, ?_, rfl⟩, configures, ?_⟩
  · rw [body, mirrors.configured _ hp]
    exact run
  · rw [configures]
    exact mirrors.update hp e

/-- Once they are configured, the daemons reach what the enclaves reach in the runs, but for the
times that the clocks show. `src/sgx_daemon/daemon.cpp:67–200`,
`src/sgx_daemon/enclave_handle.h:98–178`, `src/enclave/enclave.cpp:978–1061`. -/
theorem daemons_reach_iff (parses : P.RoundTrips) (cmac : List UInt8 → CmacTag) (d : Deployment)
    (s : World) : (∃ n, Reached P cmac d n ∧ n.Shows P cmac d s) ↔
      ∃ h t, Run d.config anyStep h t ∧ t.Alike d.config s := by
  constructor
  · rintro ⟨n, reached, configured, peers, wire, uids⟩
    obtain ⟨u, mirrors, w, ⟨h, run⟩, retimed⟩ := reached.retimed parses
    refine ⟨h, w, run, fun p hp ↦ ?_, ?_, ?_⟩
    · have here := peers p hp
      rw [mirrors.configured p (configured p hp)] at here
      exact (retimed.peers p hp).symm.trans here
    · rw [retimed.net]
      exact (List.map_injective_iff.mpr (onWire_injective parses)) (wire.symm.trans mirrors.wire)
    · rw [retimed.uids, ← mirrors.uids, uids]
  · rintro ⟨h, t, run, alike⟩
    let R (w : World) : Prop := ∃ n, Reached P cmac d n ∧
      (∀ p ∈ d.config.peerToEventMap, p ∈ n.configured) ∧ Mirrors P cmac d n w
    have closed (w : World) (b : Action) (w' : World) (hw : R w)
        (next : w.step d.config b = some w') : R w' := by
      obtain ⟨n, reached, configured, mirrors⟩ := hw
      have hp := configured _ (World.step_body next).1.1
      obtain ⟨a, n', allowed, next', same, mirrors'⟩ := mirrors.step_of_world parses hp next
      exact ⟨n', reached.step allowed next', same ▸ configured, mirrors'⟩
    have start : R (World.initial d.config) := by
      obtain ⟨n, reached, configured, -, mirrors⟩ := exists_configured P cmac
        d.config.peerToEventMap.keys fun p ↦ Std.ExtTreeMap.mem_keys.mp
      exact ⟨n, reached, fun p hp ↦ configured p (Std.ExtTreeMap.mem_keys.mpr hp), mirrors⟩
    obtain ⟨w, ⟨n, reached, configured, mirrors⟩, retimed⟩ := Retimed.run closed start run
    refine ⟨n, reached, configured, fun p hp ↦ ?_, ?_, ?_⟩
    · rw [mirrors.configured p (configured p hp)]
      exact (retimed.peers p hp).symm.trans (alike.peers p hp)
    · rw [mirrors.wire, retimed.net, alike.net]
    · rw [mirrors.uids, retimed.uids, alike.uids]

end Network

end

/-- One event with two peers, as a client configures them. -/
def pair : Deployment where
  workflow := ⟨[⟨⟨0, 1⟩, false, false, false, [], [], [], [], []⟩]⟩
  peers := [⟨⟨0, 11⟩, ⟨0, 1⟩⟩, ⟨⟨0, 12⟩, ⟨0, 1⟩⟩]

/-- Their daemons see one of the two elected. -/
theorem pair_daemons_reach : ∃ n s, Network.Reached recorded folded pair n ∧
    n.Shows recorded folded pair s ∧ (s.peers ⟨0, 11⟩).role = .leader := by
  obtain ⟨h, s, run, leads⟩ := exists_run_of_replay pair.config anyStep
    [.tick ⟨0, 11⟩ 1 emptyUid, .tick ⟨0, 12⟩ 1 emptyUid, .tick ⟨0, 11⟩ 10000 emptyUid,
      .deliver ⟨0, 12⟩ 0, .deliver ⟨0, 11⟩ 1, .deliver ⟨0, 12⟩ 2, .deliver ⟨0, 11⟩ 3,
      .deliver ⟨0, 12⟩ 4]
    (fun _ s ↦ (s.peers ⟨0, 11⟩).role = .leader) (by decide +kernel)
  obtain ⟨n, reached, shown⟩ := (Network.daemons_reach_iff recorded_roundTrips folded pair s).mpr
    ⟨h, s, run, fun _ _ ↦ .refl _, rfl, rfl⟩
  exact ⟨n, s, reached, shown, leads⟩

end TrustedDcr.Daemon
