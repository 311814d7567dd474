import TrustedDcr.Daemon.History
import TrustedDcr.System.Serial

/-!
# Complete snapshots

`History` stops waiting when the record has as many clusters as the configuration
has events. Clusters are recorded under the events of peers only, so this is when
every event has its part; an event listed twice is waited for in vain.
-/

namespace TrustedDcr.Daemon
open TrustedDcr.Msg TrustedDcr.Dcr TrustedDcr.Enclave TrustedDcr.System TrustedDcr.Theory

section
variable {cfg : Config}

/-! ### Who answers -/

/-- The enclaves know the clusters of the peers, and only peers hand over logs. -/
structure Answers (cfg : Config) (w : World) : Prop where
  mapped : ∀ p (k v : Uid), cfg.peerToEventMap[k]? = some v →
    (w.peers p).peerToEventMap[k]? = some v
  answered : ∀ rsp, .logRsp rsp ∈ w.net → rsp.success = true → rsp.source ∈ cfg.peerToEventMap

/-- What a call hands over is recorded under the event of a peer. -/
theorem Answers.step {w v : World} {a : Action} (answers : Answers cfg w) (place : Local cfg w)
    (next : w.step cfg a = some v) : Answers cfg v ∧
      ∀ part ∈ Site.handed w a, ∃ q ∈ cfg.peerToEventMap, part.1 = cfg.clusterOf q := by
  have call : wp (a.call.body a.oracle) (fun _ e ↦
      (Site.handed w a = handsOver (w.peers a.peer) a.call ∧
        ∀ rsp, .logRsp rsp ∈ e.sent → rsp.success = true → rsp.source = (w.peers a.peer).id) ∧
      Goes a.call.received a.oracle (w.peers a.peer) (w.enclave a.peer) e) (w.enclave a.peer) := by
    refine wp_and (fun u e he ↦ ?_) (goes_body _ _ _)
    obtain ⟨returned, ms, hms, reports⟩ := logs_body a.oracle a.call (w.enclave a.peer) u e he
    have handed : Site.handed w a = e.returned := by
      unfold Site.handed
      rw [he]
    rw [show e.sent = ms from hms]
    exact ⟨handed.trans (returned.trans (List.nil_append _)), fun rsp hr hs ↦ (reports rsp hr hs).1⟩
  obtain ⟨allowed, e, ⟨⟨handed, sources⟩, goes⟩, hpeers, hnet, -⟩ := World.step_of_wp next call
  refine ⟨⟨fun p k v hk ↦ ?_, fun rsp hrsp granted ↦ ?_⟩, fun part hpart ↦ ?_⟩
  · rw [hpeers]
    by_cases hp : p = a.peer
    · subst hp
      rw [Function.update_self]
      exact goes.locked.mapped (answers.mapped _ k v hk)
    · rw [Function.update_of_ne hp]
      exact answers.mapped p k v hk
  · rw [hnet, List.mem_append] at hrsp
    rcases hrsp with hrsp | hrsp
    · exact answers.answered rsp hrsp granted
    · rw [sources rsp hrsp granted, show (w.peers a.peer).id = a.peer from (place.placed a.peer).1]
      exact allowed.1
  · rw [handed] at hpart
    rcases handsOver_cases (w.peers a.peer) a.call with none | ⟨rsp, hcall, granted, one⟩
    · rw [none] at hpart
      exact nomatch hpart
    · rw [one, List.mem_singleton] at hpart
      have sent : .logRsp rsp ∈ w.net := allowed.received _ (by rw [hcall]; rfl)
      have source := answers.answered rsp sent granted
      refine ⟨rsp.source, source, ?_⟩
      obtain ⟨x, hx⟩ :=
        Option.isSome_iff_exists.mp (Std.ExtTreeMap.mem_iff_isSome_getElem?.mp source)
      rw [hpart]
      unfold Peer.eventOf Config.clusterOf
      rw [Std.ExtTreeMap.getD_eq_getD_getElem?, Std.ExtTreeMap.getD_eq_getD_getElem?,
        answers.mapped _ _ _ hx, hx]

private theorem Answers.initial (cfg : Config) : Answers cfg (World.initial cfg) where
  mapped p k v hk := by
    change (configured cfg p).peerToEventMap[k]? = some v
    rwa [(fresh_configured cfg p).peerToEventMap]
  answered _ hm := nomatch hm

/-! ### When the record is complete -/

namespace HistoryState

/-- The record has parts of the given events only, and is complete when it has as many. -/
structure Collects (d : HistoryState) (events : List Uid) : Prop where
  size : d.wfSize = events.length
  mem : ∀ c ∈ d.history, c ∈ events
  ready : d.historyReady = true ↔ d.history.size = events.length

variable {d : HistoryState} {events : List Uid}

private theorem Collects.keys_subperm (h : d.Collects events) : d.history.keys.Subperm events :=
  List.subperm_of_subset Std.ExtTreeMap.nodup_keys fun _ hc ↦
    h.mem _ (Std.ExtTreeMap.mem_keys.mp hc)

/-- It is ready exactly if its clusters are the events, each once. -/
theorem Collects.ready_iff (h : d.Collects events) :
    d.historyReady = true ↔ d.history.keys.Perm events := by
  rw [h.ready, ← Std.ExtTreeMap.length_keys]
  constructor
  · intro length
    exact h.keys_subperm.perm_of_length_le length.ge
  · exact List.Perm.length_eq

private theorem mem_returnHistory (d : HistoryState) (entries : List Entry) (cluster c : Uid) :
    c ∈ (d.returnHistory entries cluster).history ↔
      (d.historyInProgress = true ∧ entries ≠ [] ∧ cluster = c) ∨ c ∈ d.history := by
  rw [Std.ExtTreeMap.mem_iff_isSome_getElem?, Std.ExtTreeMap.mem_iff_isSome_getElem?,
    getElem?_returnHistory]
  split
  · next fresh => simp [fresh]
  · next old => simp [old]

/-- The record grows by one of the events at most. -/
theorem Collects.size_returnHistory (h : d.Collects events) (entries : List Entry) {cluster : Uid}
    (declared : cluster ∈ events) :
    d.history.size ≤ (d.returnHistory entries cluster).history.size ∧
      (d.returnHistory entries cluster).history.size ≤ events.length := by
  have length {m : UidMap (List Entry)} {l : List Uid} (sub : ∀ c ∈ m, c ∈ l) :
      m.size ≤ l.length := by
    rw [← Std.ExtTreeMap.length_keys]
    exact (List.subperm_of_subset Std.ExtTreeMap.nodup_keys fun c hc ↦
      sub c (Std.ExtTreeMap.mem_keys.mp hc)).length_le
  constructor
  · rw [← Std.ExtTreeMap.length_keys (t := (d.returnHistory entries cluster).history)]
    refine length fun c hc ↦ Std.ExtTreeMap.mem_keys.mpr ?_
    exact (mem_returnHistory d entries cluster c).mpr (Or.inr hc)
  · refine length fun c hc ↦ ?_
    rcases (mem_returnHistory d entries cluster c).mp hc with ⟨-, -, rfl⟩ | hc
    · exact declared
    · exact h.mem c hc

/-- A part is recorded for one of the events. -/
theorem Collects.returnHistory (h : d.Collects events) (entries : List Entry) {cluster : Uid}
    (declared : cluster ∈ events) : (d.returnHistory entries cluster).Collects events := by
  have sizes := h.size_returnHistory entries declared
  have known : ∀ c ∈ (d.returnHistory entries cluster).history, c ∈ events := by
    intro c hc
    rcases (mem_returnHistory d entries cluster c).mp hc with ⟨-, -, rfl⟩ | hc
    · exact declared
    · exact h.mem c hc
  have size : (d.returnHistory entries cluster).wfSize = events.length := by
    rw [← h.size]
    unfold HistoryState.returnHistory
    split <;> rfl
  refine ⟨size, known, ?_⟩
  unfold HistoryState.returnHistory at sizes ⊢
  split at sizes
  · next idle => rw [if_pos idle, h.ready]
  · next progress =>
    rw [if_neg progress]
    dsimp only at sizes ⊢
    rw [h.size]
    split
    · next complete => simp [complete]
    · next incomplete =>
      -- a record that was complete has not grown
      rw [h.ready]
      omega

end HistoryState

/-! ### Over a run -/

/-- Every daemon collects parts of the events of the workflow. -/
theorem Site.Run.collects (populated : cfg.Populated) {C : Site → Occurrence → Prop}
    {h : Site.Past} {s : Site} (run : Site.Run cfg C h s) (events : cfg.workflow.eventIds ≠ []) :
    Answers cfg s.world ∧ ∀ p, (s.daemons p).Collects cfg.workflow.eventIds := by
  have empty (d : HistoryState) (size : d.wfSize = cfg.workflow.eventIds.length)
      (waits : d.historyReady = false) (none : d.history = ∅) :
      d.Collects cfg.workflow.eventIds := by
    refine ⟨size, fun c hc ↦ ?_, ?_⟩
    · rw [none] at hc
      simp at hc
    · rw [waits, none, Std.ExtTreeMap.size_empty]
      exact iff_of_false Bool.noConfusion fun length ↦
        events (List.eq_nil_of_length_eq_zero length.symm)
  induction run with
  | initial => exact ⟨.initial cfg, fun p ↦ empty _ rfl rfl rfl⟩
  | @step h s t x run _ next ih =>
    obtain ⟨answers, collects⟩ := ih
    cases x with
    | host a =>
      obtain ⟨w, hw, rfl⟩ := Option.map_eq_some_iff.mp next
      obtain ⟨_, world⟩ := run.world
      obtain ⟨answers', known⟩ := answers.step world.local hw
      refine ⟨answers', fun p ↦ ?_⟩
      dsimp only
      by_cases hp : p = a.peer
      · subst hp
        rw [Function.update_self]
        have declared : ∀ part ∈ Site.handed s.world a, part.1 ∈ cfg.workflow.eventIds := by
          intro part hpart
          obtain ⟨q, hq, event⟩ := known part hpart
          exact event ▸ populated.2 q (Std.ExtTreeMap.mem_keys.mpr hq)
        exact List.foldlRecOn
          (motive := fun d : HistoryState ↦ d.Collects cfg.workflow.eventIds) _ _
          (collects a.peer) fun d hd part hpart ↦ hd.returnHistory _ (declared part hpart)
      · rw [Function.update_of_ne hp]
        exact collects p
    | start peer =>
      obtain ⟨d, hd, rfl⟩ := Option.map_eq_some_iff.mp next
      refine ⟨answers, fun p ↦ ?_⟩
      dsimp only
      by_cases hp : p = peer
      · subst hp
        rw [Function.update_self]
        unfold HistoryState.beginHistory at hd
        split at hd
        · exact nomatch hd
        · obtain rfl := Option.some.inj hd
          exact ⟨(collects p).size, (collects p).mem, (collects p).ready⟩
      · rw [Function.update_of_ne hp]
        exact collects p
    | finish peer =>
      simp only [Site.step, Option.ite_none_right_eq_some, Option.some.injEq] at next
      obtain ⟨-, rfl⟩ := next
      refine ⟨answers, fun p ↦ ?_⟩
      dsimp only
      by_cases hp : p = peer
      · subst hp
        rw [Function.update_self]
        exact empty _ (collects p).size rfl rfl
      · rw [Function.update_of_ne hp]
        exact collects p

/-- `History` stops waiting before its time is out exactly when its snapshot has one part for each
event of the workflow. `src/sgx_daemon/ocall.cpp:97–108`, `src/sgx_daemon/daemon.cpp:190–220`. -/
theorem historyReady_iff_complete (populated : cfg.Populated) {h : Site.Past} {s : Site}
    (run : Site.Run cfg (fun _ _ ↦ True) h s) {peer : Uid} (hp : peer ∈ cfg.peerToEventMap) :
    (s.daemons peer).historyReady = true ↔
      ((s.daemons peer).endHistory.1.map Part.cluster).Perm
        (cfg.workflow.eventIds.map uidToWire) := by
  have events : cfg.workflow.eventIds ≠ [] :=
    List.ne_nil_of_mem (populated.2 peer (Std.ExtTreeMap.mem_keys.mpr hp))
  rw [((run.collects populated events).2 peer).ready_iff, HistoryState.clusters_endHistory,
    List.map_perm_map_iff uidToWire_injective]

end

/-- Both clusters have answered, and the snapshot is complete. -/
theorem rivals_complete : ∃ h s, Site.Run rivals (fun _ _ ↦ True) h s ∧
    ((s.daemons ⟨0, 11⟩).endHistory.1.map Part.cluster).Perm
      (rivals.workflow.eventIds.map uidToWire) := by
  obtain ⟨r, hr, ready⟩ : ∃ r ∈ Site.replay rivals (fun _ _ ↦ True) [] (.initial rivals)
      [.start ⟨0, 11⟩, .ask ⟨0, 11⟩, .deliver ⟨0, 11⟩ (.logReq ⟨⟨0, 11⟩, ⟨0, 11⟩⟩),
        .deliver ⟨0, 21⟩ (.logReq ⟨⟨0, 21⟩, ⟨0, 11⟩⟩),
        .deliver ⟨0, 11⟩ (.logRsp (rootRsp ⟨0, 11⟩ ⟨0, 21⟩)),
        .deliver ⟨0, 11⟩ (.logRsp (rootRsp ⟨0, 11⟩ ⟨0, 11⟩))],
      (r.2.daemons ⟨0, 11⟩).historyReady = true := by
    decide +kernel
  have run := Site.run_of_replay .initial hr
  have complete := historyReady_iff_complete (by decide +kernel : rivals.Populated) run
    (by decide +kernel : (⟨0, 11⟩ : Uid) ∈ rivals.peerToEventMap)
  exact ⟨r.1, r.2, run, complete.mp ready⟩

end TrustedDcr.Daemon
