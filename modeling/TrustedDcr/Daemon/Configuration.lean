import TrustedDcr.Daemon.Wire
import TrustedDcr.System.Clocks

/-!
# How an enclave is configured

`Config` of the daemon and `e_configure_enclave` of its handle. Each daemon is sent
the workflow and all peers, with its own identifier. Its timer runs before, so that
the timers of a configured peer are those of its start, or what ticks made of them.
-/

namespace TrustedDcr.Daemon
open TrustedDcr.Msg TrustedDcr.Dcr TrustedDcr.Enclave TrustedDcr.System TrustedDcr.Theory

/-- `tdcr::sgxd::SgxConfig::Peer`, without the address. -/
structure WirePeer where
  uid : WireUid
  event : WireUid

/-- `tdcr::sgxd::SgxConfig`. -/
structure SgxConfig where
  self : WireUid
  workflow : WireWorkflow
  peers : List WirePeer

/-- The loop of `Config` over the peers. `src/sgx_daemon/daemon.cpp:73–84`. -/
def peersToEvents (peers : List WirePeer) : UidMap Uid :=
  peers.foldl (fun m peer ↦ m.insert peer.uid.fromWire peer.event.fromWire) ∅

/-- `peer_to_event` when the enclave is configured; printing the cluster of the own identifier has
looked it up. `src/sgx_daemon/daemon.cpp:70–88`. -/
def SgxConfig.peerToEvent (conf : SgxConfig) : UidMap Uid :=
  (peersToEvents conf.peers).insertIfNew conf.self.fromWire emptyUid

/-- `flatten_map`. `src/sgx_daemon/enclave_handle.h:119–132`. -/
def flattenMap (m : UidMap Uid) : List Uid × List Uid :=
  (m.toList.map Prod.fst, m.toList.map Prod.snd)

/-- `e_configure_enclave`, which tells the time as well.
`src/sgx_daemon/enclave_handle.h:98–104,134–178`. -/
def eConfigureEnclave (o : Oracle) (peerId : Uid) (workflow : DcrWorkflow)
    (peerToEventMap : UidMap Uid) (ticks : UInt64) : Ecall Unit := do
  let temp := workflow.createIntermediate
  let (peers, events) := flattenMap peerToEventMap
  configureEnclave o peerId temp (peers.zip events)
  setTime o ticks

/-- `Config`, with the enclave behind it. `src/sgx_daemon/daemon.cpp:67–99`. -/
def configureFrom (o : Oracle) (conf : SgxConfig) (ticks : UInt64) : Ecall Unit :=
  eConfigureEnclave o conf.self.fromWire conf.workflow.fromWire conf.peerToEvent ticks

/-- What all daemons are told alike. -/
structure Deployment where
  workflow : WireWorkflow
  peers : List WirePeer

namespace Deployment

variable (d : Deployment)

/-- The message to the daemon of one peer. -/
def message (self : Uid) : SgxConfig := ⟨uidToWire self, d.workflow, d.peers⟩

/-- What its enclaves are configured with. -/
def config : Config where
  workflow := d.workflow.fromWire.createIntermediate
  peerMap := (peersToEvents d.peers).toList

end Deployment

/-! ### The peer map -/

private theorem zip_flattenMap (m : UidMap Uid) :
    (flattenMap m).1.zip (flattenMap m).2 = m.toList := by
  rw [show flattenMap m = m.toList.unzip from List.unzip_eq_map.symm]
  exact List.zip_unzip _

/-- The enclave builds the map that the daemon has flattened. -/
theorem createPeerToEventMap_toList (m : UidMap Uid) : createPeerToEventMap m.toList = m := by
  have built : createPeerToEventMap m.toList = Std.ExtTreeMap.ofList m.toList :=
    Std.ExtTreeMap.ofList_eq_foldl.symm
  rw [built]
  refine Std.ExtTreeMap.ext_getElem? fun k ↦ ?_
  cases found : m[k]? with
  | some v =>
    exact Std.ExtTreeMap.getElem?_ofList_of_mem Std.ReflCmp.compare_self
      Std.ExtTreeMap.distinct_keys_toList (Std.ExtTreeMap.mem_toList_iff_getElem?_eq_some.mpr found)
  | none =>
    refine Std.ExtTreeMap.getElem?_ofList_of_contains_eq_false ?_
    rw [Std.ExtTreeMap.map_fst_toList_eq_keys]
    simpa using found

namespace Deployment

variable {d : Deployment} {p : Uid}

private theorem peerToEventMap_config : d.config.peerToEventMap = peersToEvents d.peers :=
  createPeerToEventMap_toList _

/-- A peer that is listed is told what all are told. -/
theorem peerToEvent_message (hp : p ∈ d.config.peerToEventMap) :
    (d.message p).peerToEvent = peersToEvents d.peers := by
  rw [peerToEventMap_config] at hp
  unfold SgxConfig.peerToEvent
  refine Std.ExtTreeMap.ext_getElem? fun k ↦ ?_
  rw [Std.ExtTreeMap.getElem?_insertIfNew, if_neg fun h ↦ h.2 hp]
  rfl

/-- So is its enclave. -/
theorem configureFrom_message (hp : p ∈ d.config.peerToEventMap) (o : Oracle) (ticks : UInt64) :
    configureFrom o (d.message p) ticks =
      (do configureEnclave o p d.config.workflow d.config.peerMap; setTime o ticks) := by
  unfold configureFrom eConfigureEnclave
  rw [peerToEvent_message hp]
  dsimp only
  rw [zip_flattenMap]
  rfl

end Deployment

/-! ### What configuration leaves behind -/

/-- Nothing but the peer has changed. -/
def Within (s t : EnclaveState) : Prop := ∃ p, t = { s with self := p }

instance : Std.Refl Within := ⟨fun s ↦ ⟨s.self, rfl⟩⟩

instance : IsTrans EnclaveState Within :=
  ⟨fun _ _ _ ⟨_, h⟩ ⟨p, h'⟩ ↦ ⟨p, by rw [h', h]⟩⟩

section
variable {o : Oracle} {id : Uid} {wf : IntermediateDcrWorkflow} {peerMap : List (Uid × Uid)}

private theorem within_modifySelf (f : Peer → Peer) : Along Within (modifySelf f) :=
  Along.modify fun s ↦ ⟨f s.self, rfl⟩

private theorem within_getSelf : Along Within getSelf := fun _ ↦ wp_getSelf.mpr (Std.Refl.refl _)

private theorem within_becomeLeader : Along Within (becomeLeader o) := by
  unfold becomeLeader
  refine (within_modifySelf _).bind fun _ ↦ within_getSelf.bind fun self ↦
    (Along.lift _).bind fun found ↦ ?_
  cases found with
  | none | some =>
    exact (within_modifySelf _).bind fun _ ↦ (within_modifySelf _).bind fun _ ↦ within_modifySelf _

private theorem within_configureEnclave : Along Within (configureEnclave o id wf peerMap) := by
  unfold configureEnclave
  refine (within_modifySelf _).bind fun _ ↦ within_getSelf.bind fun self ↦ Along.bind ?_ fun _ ↦
    (within_modifySelf _).bind fun _ ↦ Along.ite within_becomeLeader (Along.pure _)
  unfold leaderMapAt
  refine within_getSelf.bind fun self ↦ ?_
  split
  · exact Along.pure _
  · exact (within_modifySelf _).bind fun _ ↦ Along.pure _

private theorem clockless_configureEnclave : Clockless (configureEnclave o id wf peerMap) :=
  walk_clockless.bind (clockless_modifySelf fun k _ ↦ ⟨⟨0, k.tMin, k.t⟩, rfl⟩) fun _ ↦
    walk_clockless.configured

/-- A leader draws no deadline. -/
theorem becomeLeader_draws (o o' : Oracle) : becomeLeader o = becomeLeader o' := by
  let lead (p : Peer) : Peer :=
    { p with role := .leader, leaderMap := p.leaderMap.insert p.clusterEvent p.id }
  have leads : (modifySelf lead >>= fun _ ↦ updateTimeout o) =
      modifySelf lead >>= fun _ ↦ updateTimeout o' := rfl
  unfold becomeLeader
  simp only [lead] at leads
  simp only [leads]

/-- So configuration draws nothing. -/
theorem configureEnclave_draws (o o' : Oracle) :
    configureEnclave o id wf peerMap = configureEnclave o' id wf peerMap := by
  unfold configureEnclave
  rw [becomeLeader_draws o o']

end

/-- An enclave that has not been configured. -/
def unconfigured : EnclaveState := ⟨Peer.zero, [], [], []⟩

/-- Its timer runs, and it has nobody to poll. -/
theorem setTime_unconfigured (o : Oracle) (ticks : UInt64) (k : Clock) :
    ∃ k', setTime o ticks (unconfigured.clocked k) = .ok (⟨⟩, unconfigured.clocked k') := by
  rw [setTime_eq]
  split
  · have polls : timeout o unconfigured = .ok (⟨⟩, unconfigured.clocked ⟨0, deltaMinTime,
        deltaMinTime + o.timeout.toUInt64 % deltaMaxTime⟩) := rfl
    obtain ⟨k', polls⟩ := Blind.eq_ok walk_clockless.timeout polls ⟨ticks, k.tMin, k.t⟩
    exact ⟨k', polls⟩
  · exact ⟨⟨ticks, k.tMin, k.t⟩, rfl⟩

private theorem configureEnclave_unconfigured (o : Oracle) (cfg : Config) (p : Uid) :
    configureEnclave o p cfg.workflow cfg.peerMap unconfigured =
      .ok (⟨⟩, ⟨configured cfg p, [], [], []⟩) := by
  obtain ⟨a, t, run, -⟩ := runs_configureEnclave cfg p
  obtain ⟨q, rfl⟩ := within_configureEnclave _ a t run
  have hq : configured cfg p = q := by
    unfold configured
    rw [run]
  rw [configureEnclave_draws o silent, hq]
  exact run

section
variable {d : Deployment} {p : Uid}

/-- What `Config` makes of an enclave whose timer has run. -/
theorem configureFrom_unconfigured (hp : p ∈ d.config.peerToEventMap) (o : Oracle) (ticks : UInt64)
    (k : Clock) : ∃ k', configureFrom o (d.message p) ticks (unconfigured.clocked k) =
      .ok (⟨⟩, ⟨(configured d.config p).clocked k', [], [], []⟩) := by
  rw [Deployment.configureFrom_message hp]
  obtain ⟨k', run⟩ := clockless_configureEnclave.eq_ok
    (configureEnclave_unconfigured o d.config p) k
  obtain ⟨now, -⟩ := timed_configureEnclave o p d.config.workflow d.config.peerMap _ _ _ run
  rw [bind_of_ok run, setTime_silent (Or.inr now)]
  exact ⟨⟨ticks, k'.tMin, k'.t⟩, rfl⟩

/-- What it makes of one whose timer has not, when it tells the time as zero. -/
theorem configureFrom_started (hp : p ∈ d.config.peerToEventMap) (o : Oracle) :
    configureFrom o (d.message p) 0 unconfigured =
      .ok (⟨⟩, ⟨configured d.config p, [], [], []⟩) := by
  rw [Deployment.configureFrom_message hp]
  obtain ⟨now, -⟩ := timed_configured d.config p
  have run := configureEnclave_unconfigured o d.config p
  rw [bind_of_ok run, setTime_silent (Or.inr now)]
  change Except.ok (PUnit.unit, EnclaveState.mk { configured d.config p with now := 0 } [] [] []) = _
  rw [← now]

end

end TrustedDcr.Daemon
