import TrustedDcr.Daemon.Wire
import TrustedDcr.Enclave.Histories
import TrustedDcr.System.Alone

/-!
# Snapshots

`History` of the daemon asks each cluster for its log and collects what the enclave
hands over, until every cluster has answered or its time is out. A response names
no request, so what is recorded may answer an earlier one.
-/

namespace TrustedDcr.Daemon
open TrustedDcr.Msg TrustedDcr.Dcr TrustedDcr.Enclave TrustedDcr.System TrustedDcr.Theory

/-- What a daemon keeps for `History`. `src/sgx_daemon/daemon.h:40–44`. -/
structure HistoryState where
  wfSize : Nat
  historyInProgress : Bool
  historyReady : Bool
  history : UidMap (List Entry)

/-- `tdcr::sgxd::Snapshot::Part`. -/
structure Part where
  cluster : WireUid
  entries : List WireEntry
  deriving DecidableEq

/-- `tdcr::sgxd::Snapshot`. -/
abbrev Snapshot := List Part

namespace HistoryState

/-- `return_history`. `src/sgx_daemon/ocall.cpp:97–108`. -/
def returnHistory (d : HistoryState) (entries : List Entry) (cluster : Uid) : HistoryState :=
  if !d.historyInProgress then d
  else
    let history := entries.foldl (fun history entry ↦
      history.insert cluster (history.getD cluster [] ++ [entry])) d.history
    { d with
      history := history
      historyReady := if history.size = d.wfSize then true else d.historyReady }

/-- The beginning of `History`, if it is not cancelled. `src/sgx_daemon/daemon.cpp:191–193`. -/
def beginHistory (d : HistoryState) : Option HistoryState :=
  if d.historyInProgress then none else some { d with historyInProgress := true }

/-- What `History` returns, and what it leaves behind. `src/sgx_daemon/daemon.cpp:206–219`. -/
def endHistory (d : HistoryState) : Snapshot × HistoryState :=
  (d.history.toList.map fun clusterPair ↦
    ⟨uidToWire clusterPair.1, clusterPair.2.map entryToWire⟩,
    { d with historyInProgress := false, historyReady := false, history := ∅ })

/-- The entries go behind those recorded for the cluster before. -/
theorem getElem?_returnHistory (d : HistoryState) (entries : List Entry) (cluster c : Uid) :
    (d.returnHistory entries cluster).history[c]? =
      if d.historyInProgress = true ∧ entries ≠ [] ∧ cluster = c then
        some (d.history.getD cluster [] ++ entries)
      else d.history[c]? := by
  have pushes (history : UidMap (List Entry)) : (entries.foldl (fun history entry ↦
      history.insert cluster (history.getD cluster [] ++ [entry])) history)[c]? =
      if entries ≠ [] ∧ cluster = c then some (history.getD cluster [] ++ entries)
      else history[c]? := by
    induction entries generalizing history with
    | nil => simp
    | cons entry entries ih =>
      rw [List.foldl_cons, ih, getD_insert_uid, if_pos rfl, getElem?_insert_uid]
      by_cases hc : cluster = c
      · by_cases last : entries = [] <;> simp [hc, last]
      · simp [hc]
  unfold returnHistory
  cases progress : d.historyInProgress with
  | false => simp
  | true => simpa using pushes d.history

/-- The parts of a snapshot are what was recorded, cluster by cluster. -/
theorem mem_endHistory (d : HistoryState) {part : Part} (h : part ∈ d.endHistory.1) :
    ∃ (c : Uid) (entries : List Entry), d.history[c]? = some entries ∧
      part = ⟨uidToWire c, entries.map entryToWire⟩ := by
  obtain ⟨⟨c, entries⟩, hpair, rfl⟩ := List.mem_map.mp h
  exact ⟨c, entries, Std.ExtTreeMap.mem_toList_iff_getElem?_eq_some.mp hpair, rfl⟩

/-- `end_history` writes one part for each cluster that has reported. -/
theorem clusters_endHistory (d : HistoryState) :
    d.endHistory.1.map Part.cluster = d.history.keys.map uidToWire := by
  unfold endHistory
  rw [List.map_map, ← Std.ExtTreeMap.map_fst_toList_eq_keys, List.map_map]
  rfl

private theorem nodup_endHistory (d : HistoryState) : (d.endHistory.1.map Part.cluster).Nodup := by
  rw [clusters_endHistory]
  exact Std.ExtTreeMap.nodup_keys.map uidToWire_injective

end HistoryState

/-! ### Runs with snapshots -/

/-- The enclaves, their daemons and the snapshots returned so far. -/
structure Site where
  world : World
  daemons : Uid → HistoryState
  snapshots : List Snapshot

/-- A call of an enclave, or one of the two ends of `History`. What is between them, the call of
`get_history` included, is calls of enclaves; its time may be out at any moment. -/
inductive Occurrence where
  | host (a : Action)
  | start (peer : Uid)
  | finish (peer : Uid)

namespace Site

/-- The daemons configured, no snapshot taken. `src/sgx_daemon/daemon.cpp:70`. -/
def initial (cfg : Config) : Site where
  world := .initial cfg
  daemons _ := ⟨cfg.workflow.eventIds.length, false, false, ∅⟩
  snapshots := []

/-- What the enclave hands over in a call. -/
def handed (s : World) (a : Action) : List (Uid × List Entry) :=
  match a.call.body a.oracle (s.enclave a.peer) with
  | .ok (_, e) => e.returned
  | .error _ => []

/-- What happens at one daemon, if it can. -/
def step (cfg : Config) (s : Site) : Occurrence → Option Site
  | .host a => (s.world.step cfg a).map fun world ↦
    { s with
      world := world
      daemons := Function.update s.daemons a.peer ((handed s.world a).foldl
        (fun d part ↦ d.returnHistory part.2 part.1) (s.daemons a.peer)) }
  | .start peer => (s.daemons peer).beginHistory.map fun d ↦
    { s with daemons := Function.update s.daemons peer d }
  | .finish peer =>
    if (s.daemons peer).historyInProgress then some
      { s with
        daemons := Function.update s.daemons peer (s.daemons peer).endHistory.2
        snapshots := s.snapshots ++ [(s.daemons peer).endHistory.1] }
    else none

/-- What happened so far, latest first, each with the state before it. -/
abbrev Past := List (Site × Occurrence)

/-- The runs all of whose steps meet a condition on the state before and what happens. -/
inductive Run (cfg : Config) (C : Site → Occurrence → Prop) : Past → Site → Prop
  | initial : Run cfg C [] (Site.initial cfg)
  | step {h : Past} {s t : Site} {x : Occurrence} (run : Run cfg C h s) (meets : C s x)
      (next : s.step cfg x = some t) : Run cfg C ((s, x) :: h) t

/-- The run things happening one after the other describe, if all can and meet the condition. -/
def replay (cfg : Config) (C : Site → Occurrence → Prop) [∀ s x, Decidable (C s x)] :
    Past → Site → List Occurrence → Option (Past × Site)
  | h, s, [] => some (h, s)
  | h, s, x :: xs =>
    if C s x then
      match s.step cfg x with
      | some t => replay cfg C ((s, x) :: h) t xs
      | none => none
    else none

section
variable {cfg : Config} {C : Site → Occurrence → Prop} {h : Past} {s t : Site} {x : Occurrence}

/-- A replay that goes through is a run. -/
theorem run_of_replay [∀ s x, Decidable (C s x)] (run : Run cfg C h s) {xs : List Occurrence}
    {r : Past × Site} (hr : replay cfg C h s xs = some r) : Run cfg C r.1 r.2 := by
  induction xs generalizing h s with
  | nil =>
    rw [replay, Option.some.injEq] at hr
    rwa [← hr]
  | cons x xs ih =>
    rw [replay] at hr
    split at hr
    · next meets =>
      split at hr
      · next t next => exact ih (run.step meets next) hr
      · exact nomatch hr
    · exact nomatch hr

/-- What the enclaves and the network go through is a run of theirs. -/
theorem Run.world (run : Run cfg C h s) : ∃ g, System.Run cfg anyStep g s.world := by
  induction run with
  | initial => exact ⟨[], .initial⟩
  | @step h s t x run _ next ih =>
    obtain ⟨g, world⟩ := ih
    cases x with
    | host a =>
      obtain ⟨w, hw, rfl⟩ := Option.map_eq_some_iff.mp next
      exact ⟨_, world.step trivial hw⟩
    | start peer =>
      obtain ⟨d, -, rfl⟩ := Option.map_eq_some_iff.mp next
      exact ⟨g, world⟩
    | finish peer =>
      simp only [Site.step, Option.ite_none_right_eq_some, Option.some.injEq] at next
      obtain ⟨-, rfl⟩ := next
      exact ⟨g, world⟩

end

end Site

/-! ### What is recorded -/

/-- What a call hands over to the host of a peer. -/
def handsOver (p : Peer) : Call → List (Uid × List Entry)
  | .recv (.logRsp rsp) => p.handsOver rsp
  | .recv _ | .setTime _ | .execute _ | .getHistory => []

/-- A call hands over the log it receives and sends the committed entries of a leader. -/
theorem logs_body (o : Oracle) (c : Call) (s : EnclaveState) :
    wp (c.body o) (fun _ t ↦ t.returned = s.returned ++ handsOver s.self c ∧
      ∃ ms, t.sent = s.sent ++ ms ∧ ∀ rsp, .logRsp rsp ∈ ms → rsp.success = true →
        rsp.source = s.self.id ∧ s.self.Reports rsp.entries) s := by
  have quiet {x : Ecall Unit} (h : Along Quiet x) : wp x (fun _ t ↦
      t.returned = s.returned ++ [] ∧ ∃ ms, t.sent = s.sent ++ ms ∧
        ∀ rsp, .logRsp rsp ∈ ms → rsp.success = true →
          rsp.source = s.self.id ∧ s.self.Reports rsp.entries) s := by
    refine wp_mono (h s) ?_
    rintro _ t ⟨returned, ms, hms, none⟩
    rw [List.append_nil]
    exact ⟨returned, ms, hms, fun rsp h ↦ absurd h (none rsp)⟩
  cases c with
  | setTime ticks => exact quiet (quiet_setTime ticks)
  | execute | getHistory => exact quiet (walk_body walk_quiet o rfl)
  | recv m =>
    cases m with
    | pollReq req => exact quiet (quiet_recvPollReq true req)
    | logReq req =>
      refine wp_mono (recvLogReq_spec true req s) ?_
      rintro _ t ⟨returned, sent⟩
      exact ⟨returned.trans (List.append_nil _).symm, sent⟩
    | logRsp rsp =>
      refine wp_mono (recvLogRsp_spec rsp s) ?_
      rintro _ t ⟨returned, ms, hms, none⟩
      exact ⟨returned, ms, hms, fun log h ↦ absurd h (none log)⟩
    | _ => exact quiet (walk_body walk_quiet o rfl)

section
variable {cfg : Config}

/-- The entries are the committed ones that a leader of the cluster had at some time. -/
def Reported (cfg : Config) (h : Site.Past) (cluster : Uid) (entries : List Entry) : Prop :=
  ∃ step ∈ h, ∃ q : Uid, cfg.peerToEventMap[q]? = some cluster ∧
    (step.1.world.peers q).Reports entries

/-- A response that is recorded is the first for its cluster since `History` was called. -/
def RecordsOnce (s : Site) : Occurrence → Prop
  | .host a =>
    match a.call with
    | .recv (.logRsp rsp) => (s.daemons a.peer).historyInProgress = true → rsp.success = true →
        (s.daemons a.peer).history[(s.world.peers a.peer).eventOf rsp.source]? = none
    | _ => True
  | .start _ | .finish _ => True

instance (s : Site) : DecidablePred (RecordsOnce s)
  | .host a => by
    unfold RecordsOnce
    dsimp only
    induction a.call using Call.casesOn with
    | recv m => induction m using Message.casesOn <;> infer_instance
    | _ => infer_instance
  | .start _ => isTrue trivial
  | .finish _ => isTrue trivial

/-- The enclaves know the clusters of the peers, and every log on its way, recorded or returned is
one that was reported. -/
structure Recorded (cfg : Config) (h : Site.Past) (s : Site) : Prop where
  mapped : ∀ p (k v : Uid), cfg.peerToEventMap[k]? = some v →
    (s.world.peers p).peerToEventMap[k]? = some v
  answered : ∀ rsp, .logRsp rsp ∈ s.world.net → rsp.success = true →
    ∃ cluster, cfg.peerToEventMap[rsp.source]? = some cluster ∧ Reported cfg h cluster rsp.entries
  recorded : ∀ p (c : Uid) entries, (s.daemons p).history[c]? = some entries →
    Reported cfg h c entries
  returned : ∀ snapshot ∈ s.snapshots, (snapshot.map Part.cluster).Nodup ∧ ∀ part ∈ snapshot,
    Reported cfg h part.cluster.fromWire (part.entries.map WireEntry.fromWire)

/-- What was reported stays so. -/
theorem Reported.mono {h : Site.Past} {cluster : Uid} {entries : List Entry}
    (reported : Reported cfg h cluster entries) (step : Site × Occurrence) :
    Reported cfg (step :: h) cluster entries := by
  obtain ⟨past, hpast, reports⟩ := reported
  exact ⟨past, List.mem_cons_of_mem _ hpast, reports⟩

variable {h : Site.Past} {s t : Site} {x : Occurrence}

private theorem Recorded.mono (recorded : Recorded cfg h s) (step : Site × Occurrence) :
    Recorded cfg (step :: h) s where
  mapped := recorded.mapped
  answered rsp hrsp granted := by
    obtain ⟨cluster, source, reported⟩ := recorded.answered rsp hrsp granted
    exact ⟨cluster, source, reported.mono step⟩
  recorded p c entries hc := (recorded.recorded p c entries hc).mono step
  returned snapshot hs := by
    obtain ⟨nodup, parts⟩ := recorded.returned snapshot hs
    exact ⟨nodup, fun part hpart ↦ (parts part hpart).mono step⟩

/-- A call hands over nothing or the log of the response it receives. -/
theorem handsOver_cases (p : Peer) (c : Call) : handsOver p c = [] ∨
    ∃ rsp, c = .recv (.logRsp rsp) ∧ rsp.success = true ∧
      handsOver p c = [(p.eventOf rsp.source, rsp.entries)] := by
  cases c with
  | setTime | execute | getHistory => exact Or.inl rfl
  | recv m =>
    cases m with
    | logRsp rsp =>
      by_cases granted : rsp.success = true
      · exact Or.inr ⟨rsp, rfl, granted, if_pos granted⟩
      · exact Or.inl (if_neg granted)
    | _ => exact Or.inl rfl

/-- The call of an enclave. -/
theorem Recorded.host (recorded : Recorded cfg h s) (place : Local cfg s.world) {a : Action}
    {w : World} (once : RecordsOnce s (.host a)) (next : s.world.step cfg a = some w) :
    Recorded cfg ((s, .host a) :: h) { s with
      world := w
      daemons := Function.update s.daemons a.peer ((Site.handed s.world a).foldl
        (fun d part ↦ d.returnHistory part.2 part.1) (s.daemons a.peer)) } := by
  have call : wp (a.call.body a.oracle) (fun _ e ↦
      (Site.handed s.world a = handsOver (s.world.peers a.peer) a.call ∧
        ∀ rsp, .logRsp rsp ∈ e.sent → rsp.success = true →
          rsp.source = (s.world.peers a.peer).id ∧
            (s.world.peers a.peer).Reports rsp.entries) ∧
      Goes a.call.received a.oracle (s.world.peers a.peer) (s.world.enclave a.peer) e)
      (s.world.enclave a.peer) := by
    refine wp_and (fun u e he ↦ ?_) (goes_body _ _ _)
    obtain ⟨returned, ms, hms, reports⟩ := logs_body a.oracle a.call (s.world.enclave a.peer) u e he
    have handed : Site.handed s.world a = e.returned := by
      unfold Site.handed
      rw [he]
    rw [show e.sent = ms from hms]
    exact ⟨handed.trans (returned.trans (List.nil_append _)), reports⟩
  obtain ⟨allowed, e, ⟨⟨handed, reports⟩, goes⟩, hpeers, hnet, -⟩ := World.step_of_wp next call
  have later := recorded.mono (s, .host a)
  constructor
  · intro p k v hk
    dsimp only
    rw [hpeers]
    by_cases hp : p = a.peer
    · subst hp
      rw [Function.update_self]
      exact goes.locked.mapped (recorded.mapped _ k v hk)
    · rw [Function.update_of_ne hp]
      exact recorded.mapped p k v hk
  · intro rsp hrsp granted
    dsimp only at hrsp
    rw [hnet, List.mem_append] at hrsp
    rcases hrsp with hrsp | hrsp
    · exact later.answered rsp hrsp granted
    · obtain ⟨source, reports⟩ := reports rsp hrsp granted
      rw [show (s.world.peers a.peer).id = a.peer from (place.placed a.peer).1] at source
      obtain ⟨cluster, hcluster⟩ := Option.isSome_iff_exists.mp
        (Std.ExtTreeMap.mem_iff_isSome_getElem?.mp allowed.1)
      rw [source]
      exact ⟨cluster, hcluster, _, List.mem_cons_self, a.peer, hcluster, reports⟩
  · intro p c entries hc
    dsimp only at hc
    by_cases hp : p = a.peer
    · subst hp
      rw [Function.update_self, handed] at hc
      rcases handsOver_cases (s.world.peers a.peer) a.call with none | ⟨rsp, hcall, granted, one⟩
      · rw [none] at hc
        exact later.recorded _ c entries hc
      · rw [one, List.foldl_cons, List.foldl_nil, HistoryState.getElem?_returnHistory] at hc
        split at hc
        · next fresh =>
          obtain ⟨progress, -, rfl⟩ := fresh
          -- nothing was recorded for the cluster, so the entries are those of this response
          have first : (s.daemons a.peer).history.getD
              ((s.world.peers a.peer).eventOf rsp.source) [] = [] := by
            simp only [RecordsOnce, hcall] at once
            rw [Std.ExtTreeMap.getD_eq_getD_getElem?, once progress granted]
            rfl
          rw [first, List.nil_append, Option.some.injEq] at hc
          subst hc
          have sent : .logRsp rsp ∈ s.world.net := allowed.received _ (by rw [hcall]; rfl)
          obtain ⟨cluster, source, reported⟩ := later.answered rsp sent granted
          have known : (s.world.peers a.peer).eventOf rsp.source = cluster := by
            unfold Peer.eventOf
            rw [Std.ExtTreeMap.getD_eq_getD_getElem?, recorded.mapped _ _ _ source]
            rfl
          rwa [known]
        · exact later.recorded _ c entries hc
    · rw [Function.update_of_ne hp] at hc
      exact later.recorded p c entries hc
  · exact later.returned

/-- A call of `History` begins with what was recorded before. -/
theorem Recorded.start (recorded : Recorded cfg h s) {peer : Uid} {d : HistoryState}
    (begins : (s.daemons peer).beginHistory = some d) :
    Recorded cfg h { s with daemons := Function.update s.daemons peer d } where
  mapped := recorded.mapped
  answered := recorded.answered
  recorded p c entries hc := by
    dsimp only at hc
    by_cases hp : p = peer
    · subst hp
      rw [Function.update_self] at hc
      unfold HistoryState.beginHistory at begins
      split at begins
      · exact nomatch begins
      · obtain rfl := Option.some.inj begins
        exact recorded.recorded p c entries hc
    · rw [Function.update_of_ne hp] at hc
      exact recorded.recorded p c entries hc
  returned := recorded.returned

/-- It returns what was recorded, and forgets it. -/
theorem Recorded.finish (recorded : Recorded cfg h s) (peer : Uid) :
    Recorded cfg h { s with
      daemons := Function.update s.daemons peer (s.daemons peer).endHistory.2
      snapshots := s.snapshots ++ [(s.daemons peer).endHistory.1] } where
  mapped := recorded.mapped
  answered := recorded.answered
  recorded p c entries hc := by
    dsimp only at hc
    by_cases hp : p = peer
    · subst hp
      rw [Function.update_self] at hc
      change (∅ : UidMap (List Entry))[c]? = some entries at hc
      simp at hc
    · rw [Function.update_of_ne hp] at hc
      exact recorded.recorded p c entries hc
  returned := by
    intro snapshot hs
    rcases List.mem_append.mp hs with hs | hs
    · exact recorded.returned snapshot hs
    · obtain rfl := List.mem_singleton.mp hs
      refine ⟨HistoryState.nodup_endHistory _, fun part hpart ↦ ?_⟩
      obtain ⟨c, entries, hc, rfl⟩ := HistoryState.mem_endHistory _ hpart
      dsimp only
      rw [fromWire_uidToWire, map_fromWire_entryToWire]
      exact recorded.recorded peer c entries hc

/-- What is recorded was reported, over a run. -/
theorem Site.Run.recorded (run : Site.Run cfg RecordsOnce h s) : Recorded cfg h s := by
  induction run with
  | initial =>
    refine ⟨fun p k v hk ↦ ?_, (fun _ hm ↦ nomatch hm), fun p c entries hc ↦ ?_,
      fun _ hs ↦ nomatch hs⟩
    · change (configured cfg p).peerToEventMap[k]? = some v
      rwa [(fresh_configured cfg p).peerToEventMap]
    · change (∅ : UidMap (List Entry))[c]? = some entries at hc
      simp at hc
  | @step h s t x run meets next ih =>
    cases x with
    | host a =>
      obtain ⟨w, hw, rfl⟩ := Option.map_eq_some_iff.mp next
      obtain ⟨_, world⟩ := run.world
      exact ih.host world.local meets hw
    | start peer =>
      obtain ⟨d, hd, rfl⟩ := Option.map_eq_some_iff.mp next
      exact (ih.mono _).start hd
    | finish peer =>
      simp only [Site.step, Option.ite_none_right_eq_some, Option.some.injEq] at next
      obtain ⟨-, rfl⟩ := next
      exact (ih.mono _).finish peer

/-- As long as no response is recorded for a cluster that has entries recorded already: each part of
a snapshot is the only one for its cluster and has the entries up to the commit index of one leader.
`src/sgx_daemon/ocall.cpp:97–108`, `src/sgx_daemon/daemon.cpp:190–220`,
`src/enclave/enclave.cpp:877–946`. -/
theorem snapshots_reported (run : Site.Run cfg RecordsOnce h s) : ∀ snapshot ∈ s.snapshots,
    (snapshot.map Part.cluster).Nodup ∧ ∀ part ∈ snapshot,
      Reported cfg h part.cluster.fromWire (part.entries.map WireEntry.fromWire) :=
  run.recorded.returned

end

/-- A host asks its enclave for the histories. -/
def Occurrence.ask (peer : Uid) : Occurrence := .host ⟨peer, .getHistory, silent⟩

/-- A host delivers a message to its enclave. -/
def Occurrence.deliver (peer : Uid) (m : Message) : Occurrence := .host ⟨peer, .recv m, silent⟩

/-- The answer of a peer that has the empty log. -/
def rootRsp (target source : Uid) : LogRsp := ⟨target, source, true, emptyUid, [getEmptyEntry]⟩

/-- The two clusters answer, and the snapshot has a part for each. -/
theorem rivals_snapshots_reported : ∃ h s, Site.Run rivals RecordsOnce h s ∧
    ∃ snapshot ∈ s.snapshots, snapshot.length = 2 ∧ (snapshot.map Part.cluster).Nodup ∧
      ∀ part ∈ snapshot,
        Reported rivals h part.cluster.fromWire (part.entries.map WireEntry.fromWire) := by
  obtain ⟨r, hr, snapshot, hs, two⟩ : ∃ r ∈ Site.replay rivals RecordsOnce [] (.initial rivals)
      [.start ⟨0, 11⟩, .ask ⟨0, 11⟩, .deliver ⟨0, 11⟩ (.logReq ⟨⟨0, 11⟩, ⟨0, 11⟩⟩),
        .deliver ⟨0, 21⟩ (.logReq ⟨⟨0, 21⟩, ⟨0, 11⟩⟩),
        .deliver ⟨0, 11⟩ (.logRsp (rootRsp ⟨0, 11⟩ ⟨0, 21⟩)),
        .deliver ⟨0, 11⟩ (.logRsp (rootRsp ⟨0, 11⟩ ⟨0, 11⟩)), .finish ⟨0, 11⟩],
      ∃ snapshot ∈ r.2.snapshots, snapshot.length = 2 := by
    decide +kernel
  have run := Site.run_of_replay .initial hr
  exact ⟨r.1, r.2, run, snapshot, hs, two, snapshots_reported run snapshot hs⟩

/-- The answer to a call of `History` whose time was out is recorded together with that to the
next, and the empty entry is returned twice. -/
theorem not_snapshots_reported : ¬ ∀ (cfg : Config) (h : Site.Past) (s : Site),
    Site.Run cfg (fun _ _ ↦ True) h s → ∀ snapshot ∈ s.snapshots,
      (snapshot.map Part.cluster).Nodup ∧ ∀ part ∈ snapshot,
        Reported cfg h part.cluster.fromWire (part.entries.map WireEntry.fromWire) := by
  intro claim
  obtain ⟨r, hr, snapshot, hs, part, hpart, two, logs⟩ :
      ∃ r ∈ Site.replay solo (fun _ _ ↦ True) [] (.initial solo)
        [.start ⟨0, 11⟩, .ask ⟨0, 11⟩, .finish ⟨0, 11⟩, .start ⟨0, 11⟩, .ask ⟨0, 11⟩,
          .deliver ⟨0, 11⟩ (.logReq ⟨⟨0, 11⟩, ⟨0, 11⟩⟩),
          .deliver ⟨0, 11⟩ (.logReq ⟨⟨0, 11⟩, ⟨0, 11⟩⟩),
          .deliver ⟨0, 11⟩ (.logRsp (rootRsp ⟨0, 11⟩ ⟨0, 11⟩)),
          .deliver ⟨0, 11⟩ (.logRsp (rootRsp ⟨0, 11⟩ ⟨0, 11⟩)), .finish ⟨0, 11⟩],
        ∃ snapshot ∈ r.2.snapshots, ∃ part ∈ snapshot, part.entries.length = 2 ∧
          ∀ step ∈ r.1, ∀ q ∈ solo.peerToEventMap.keys,
            (step.1.world.peers q).log.length = 1 := by
    decide +kernel
  obtain ⟨step, hstep, q, hq, -, inside, entries⟩ :=
    (claim solo r.1 r.2 (Site.run_of_replay .initial hr) snapshot hs).2 part hpart
  have peer : q ∈ solo.peerToEventMap := by
    rw [Std.ExtTreeMap.mem_iff_isSome_getElem?, hq]
    rfl
  have one := logs step hstep q (Std.ExtTreeMap.mem_keys.mpr peer)
  have length := congrArg List.length entries
  rw [List.length_map, two, List.length_take_of_le inside] at length
  omega

end TrustedDcr.Daemon
