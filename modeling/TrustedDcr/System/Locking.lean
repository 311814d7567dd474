import TrustedDcr.System.Start
import TrustedDcr.System.Step

/-!
# Execution with every lock granted

A leader appends the EXEC entry of an attempt when `locked_events` holds its whole
lock set. The set keeps bare event ids, and `recv_command_rsp` enters the event of
a refusal just as that of a grant, and keeps the ids of an earlier attempt. In
the runs where neither happens the locks were granted to this very attempt.
-/

namespace TrustedDcr.System
open TrustedDcr.Msg TrustedDcr.Dcr TrustedDcr.Dcr.DcrWorkflow TrustedDcr.Enclave TrustedDcr.Theory

/-- The response a step counts towards the locks of an attempt. -/
def countedRsp (s : World) (a : Action) : Option CommandRsp :=
  match a.call with
  | .recv (.commandRsp rsp) => if (s.peers a.peer).countsLock rsp then some rsp else none
  | _ => none

/-- The response a peer counted last. -/
def lastCounted (p : Uid) : Hist → Option CommandRsp
  | [] => none
  | (s, a) :: h =>
    if a.peer = p then (countedRsp s a).or (lastCounted p h) else lastCounted p h

/-- The step delivers to `p` the grant of attempt `u` by a peer that the map assigns to `x`. -/
def grants (p u x : Uid) (peerToEventMap : UidMap Uid) (s : World) (a : Action) : Bool :=
  match a.call with
  | .recv (.commandRsp rsp) => a.peer == p && uidsEqual rsp.target (s.peers p).id && rsp.success &&
      tagsEqual rsp.tag ⟨u, .lock⟩ && peerToEventMap[rsp.source]? == some x
  | _ => false

/-- Such a grant was delivered. -/
def Granted (h : Hist) (p u x : Uid) (peerToEventMap : UidMap Uid) : Prop :=
  ∃ step ∈ h, grants p u x peerToEventMap step.1 step.2 = true

instance (h : Hist) (p u x : Uid) (m : UidMap Uid) : Decidable (Granted h p u x m) :=
  inferInstanceAs (Decidable (∃ step ∈ h, grants p u x m step.1 step.2 = true))

/-- Every counted response is a grant, and finds no locks of another attempt. -/
def CountsGrants (h : Hist) (s : World) (a : Action) : Prop :=
  ∀ rsp ∈ countedRsp s a, rsp.success = true ∧
    ((s.peers a.peer).lockedEvents.isEmpty = false →
      ∃ last ∈ lastCounted a.peer h, last.tag.uid = rsp.tag.uid)

instance (h : Hist) (s : World) (a : Action) : Decidable (CountsGrants h s a) :=
  inferInstanceAs (Decidable (∀ rsp ∈ countedRsp s a, _))

/-- Grants stay delivered, and maps only grow. -/
theorem Granted.mono {h h' : Hist} {p u x : Uid} {m m' : UidMap Uid} (hg : Granted h p u x m)
    (hh : ∀ step ∈ h, step ∈ h')
    (hm : ∀ {k v : Uid}, m[k]? = some v → m'[k]? = some v) : Granted h' p u x m' := by
  obtain ⟨step, hstep, hgrants⟩ := hg
  refine ⟨step, hh step hstep, ?_⟩
  unfold grants at hgrants ⊢
  split at hgrants
  · simp only [Bool.and_eq_true, beq_iff_eq] at hgrants ⊢
    exact ⟨hgrants.1, hm hgrants.2⟩
  · exact hgrants

/-- The counted response of a call is the one it received. -/
theorem countedRsp_of_received {s : World} {a : Action} {rsp : CommandRsp}
    (received : a.call.received = some (.commandRsp rsp))
    (counts : (s.peers a.peer).countsLock rsp = true) : countedRsp s a = some rsp := by
  unfold countedRsp
  rw [Call.eq_recv received]
  exact if_pos counts

/-- A counted response that is a grant grants its attempt the event of its source. -/
theorem granted_of_counted {s : World} {a : Action} {h : Hist} {rsp : CommandRsp} {x : Uid}
    (received : a.call.received = some (.commandRsp rsp))
    (counts : (s.peers a.peer).countsLock rsp = true) (success : rsp.success = true)
    {m : UidMap Uid} (mapped : m[rsp.source]? = some x) :
    Granted ((s, a) :: h) a.peer rsp.tag.uid x m := by
  refine ⟨(s, a), List.mem_cons_self, ?_⟩
  obtain ⟨htarget, -, -, htype, -⟩ := Peer.countsLock_iff.mp counts
  unfold grants
  rw [Call.eq_recv received]
  simp [htarget, success, mapped, ← htype]

/-- Every locked event was granted to the attempt counted last. -/
def LocksGranted (h : Hist) (s : World) : Prop :=
  ∀ p, ∀ x ∈ (s.peers p).lockedEvents, ∃ last, lastCounted p h = some last ∧
    Granted h p last.tag.uid x (s.peers p).peerToEventMap

/-- One step keeps the locked events granted. -/
theorem LocksGranted.step {cfg : Config} {h : Hist} {s t : World} {a : Action}
    (inv : LocksGranted h s) (meets : CountsGrants h s a) (next : s.step cfg a = some t) :
    LocksGranted ((s, a) :: h) t := by
  obtain ⟨-, e, goes, hpeers, -, -⟩ := World.step_cases next
  intro p x hx
  have hh : ∀ step ∈ h, step ∈ (s, a) :: h := fun _ hs ↦ List.mem_cons_of_mem _ hs
  by_cases hp : p = a.peer
  · subst hp
    rw [hpeers, Function.update_self] at hx ⊢
    have hl := goes.locked
    unfold lastCounted
    rw [if_pos rfl]
    cases hc : countedRsp s a with
    | none =>
      rcases hl.locked x hx with hx | ⟨rsp, hr, hcounts, -⟩
      · obtain ⟨last, hlast, hg⟩ := inv a.peer x hx
        exact ⟨last, hlast, hg.mono hh hl.mapped⟩
      · rw [countedRsp_of_received hr hcounts] at hc
        exact nomatch hc
    | some rsp =>
      obtain ⟨hsuccess, hsame⟩ := meets rsp hc
      refine ⟨rsp, rfl, ?_⟩
      rcases hl.locked x hx with hx | ⟨rsp', hr, hcounts, -, hm⟩
      · obtain ⟨last, hlast, hg⟩ := inv a.peer x hx
        have hne : (s.peers a.peer).lockedEvents.isEmpty = false :=
          Std.ExtTreeSet.isEmpty_eq_false_iff.mpr fun hn ↦ Std.ExtTreeSet.not_mem_empty (hn ▸ hx)
        obtain ⟨last', hlast', htag⟩ := hsame hne
        obtain rfl := Option.some.inj (hlast.symm.trans hlast')
        rw [← htag]
        exact hg.mono hh hl.mapped
      · have := (countedRsp_of_received hr hcounts).symm.trans hc
        obtain rfl := Option.some.inj this
        exact granted_of_counted hr hcounts hsuccess hm
  · rw [hpeers, Function.update_of_ne hp] at hx ⊢
    obtain ⟨last, hlast, hg⟩ := inv p x hx
    refine ⟨last, ?_, hg.mono hh id⟩
    unfold lastCounted
    rw [if_neg (Ne.symm hp), hlast]

/-- In every state of a run that counts grants only, the locked events were granted. -/
theorem locksGranted_of_run {cfg : Config} {h : Hist} {s : World} (run : Run cfg CountsGrants h s) :
    LocksGranted h s := by
  induction run with
  | initial =>
    intro p x hx
    rw [show (World.initial cfg).peers p = configured cfg p from rfl,
      (fresh_configured cfg p).lockedEvents] at hx
    exact absurd hx Std.ExtTreeSet.not_mem_empty
  | step run meets next ih => exact ih.step meets next

/-- A leader that appends the EXEC entry of an attempt on a response was granted every lock of its
event for this attempt. `src/enclave/enclave.cpp:627–665`. -/
theorem executes_with_locks_granted {cfg : Config} {h : Hist} {s t : World} {a : Action}
    (run : Run cfg CountsGrants h s) (meets : CountsGrants h s a) (next : s.step cfg a = some t)
    {rsp : CommandRsp} (received : a.call = .recv (.commandRsp rsp)) {e : Entry}
    (appended : (t.peers a.peer).log = (s.peers a.peer).log ++ [e]) (exec : e.tag.type = .exec)
    {x : Uid} (lock : x ∈ (s.peers a.peer).workflow.getLockSet (s.peers a.peer).clusterEvent) :
    Granted ((s, a) :: h) a.peer e.tag.uid x (t.peers a.peer).peerToEventMap := by
  have hinv := locksGranted_of_run run
  have hmapped {r : CommandRsp} (hr : a.call = .recv (.commandRsp r))
      (counts : (s.peers a.peer).countsLock r = true) := World.step_mapped next hr counts
  obtain ⟨-, v, goes, hpeers, -, -⟩ := World.step_cases next
  rw [hpeers, Function.update_self] at appended hmapped ⊢
  have hrcv : a.call.received = some (.commandRsp rsp) := by rw [received]; rfl
  have hl := goes.locked
  rw [hrcv] at goes hl
  rcases log_of_moves goes.moves rfl with hlog | ⟨e', ds, horigin, -, hlog⟩ | ⟨req, hr, -⟩
  · have := congrArg List.length (appended.symm.trans hlog)
    simp at this
  · have he : [e] = [e'] := List.append_cancel_left (appended.symm.trans hlog)
    obtain rfl := List.cons_eq_cons.mp he |>.1
    cases horigin with
    | executed hr hcomplete =>
      cases hr
      obtain ⟨counts, hall⟩ := Bool.and_eq_true_iff.mp hcomplete
      obtain ⟨hsuccess, hsame⟩ := meets _ (countedRsp_of_received hrcv counts)
      have hx := List.all_eq_true.mp hall x (Std.ExtTreeSet.mem_toList.mpr lock)
      rcases (mem_set_insert_uid _ _ _).mp (Std.ExtTreeSet.contains_iff_mem.mp hx) with rfl | hx
      · exact granted_of_counted hrcv counts hsuccess (hmapped received counts)
      · obtain ⟨last, hlast, hg⟩ := hinv a.peer x hx
        have hne : (s.peers a.peer).lockedEvents.isEmpty = false :=
          Std.ExtTreeSet.isEmpty_eq_false_iff.mpr fun hn ↦ Std.ExtTreeSet.not_mem_empty (hn ▸ hx)
        obtain ⟨last', hlast', htag⟩ := hsame hne
        obtain rfl := Option.some.inj (hlast.symm.trans hlast')
        rw [← htag]
        exact hg.mono (fun _ hs ↦ List.mem_cons_of_mem _ hs) goes.locked.mapped
    | aborted => exact nomatch exec
    | request hr => exact nomatch hr
    | immediate hr => exact nomatch hr
    | checkpoint hr => exact nomatch hr
  · exact nomatch hr

/-- The peer of the first event executes once the peer of the second has granted its lock. -/
theorem rivals_execute_with_locks_granted :
    ∃ h s a t, Run rivals CountsGrants h s ∧ s.step rivals a = some t ∧
      Granted ((s, a) :: h) ⟨0, 11⟩ ⟨0, 101⟩ ⟨0, 2⟩ (t.peers ⟨0, 11⟩).peerToEventMap := by
  let rsp : CommandRsp := ⟨⟨0, 11⟩, ⟨0, 21⟩, ⟨⟨0, 101⟩, .lock⟩, true, emptyUid⟩
  let e : Entry := ⟨2, 0, ⟨0, 1⟩, ⟨0, 11⟩, ⟨⟨0, 101⟩, .exec⟩⟩
  obtain ⟨h, s, a, t, run, meets, next, htest⟩ := exists_step_of_replay
    rivals CountsGrants
    [.start ⟨0, 11⟩ ⟨0, 1⟩ ⟨0, 101⟩, .deliver ⟨0, 11⟩ 0, .deliver ⟨0, 21⟩ 1] (.deliver ⟨0, 11⟩ 2)
    (fun _ s a t ↦ a.peer = ⟨0, 11⟩ ∧ a.call = .recv (.commandRsp rsp) ∧
      (t.peers a.peer).log = (s.peers a.peer).log ++ [e] ∧
      ⟨0, 2⟩ ∈ (s.peers a.peer).workflow.getLockSet (s.peers a.peer).clusterEvent)
    (by decide +kernel)
  obtain ⟨peer, received, appended, lock⟩ := htest
  refine ⟨h, s, a, t, run, next, ?_⟩
  rw [← peer]
  exact executes_with_locks_granted run meets next received appended rfl lock

/-- Not every run is like that: two rivals refuse each other, and the first to hear of it
executes. -/
theorem not_executes_with_locks_granted :
    ¬ ∀ (cfg : Config) (h : Hist) (s t : World) (a : Action) (rsp : CommandRsp) (e : Entry)
      (x : Uid), Run cfg anyStep h s → s.step cfg a = some t → a.call = .recv (.commandRsp rsp) →
      (t.peers a.peer).log = (s.peers a.peer).log ++ [e] → e.tag.type = .exec →
      x ∈ (s.peers a.peer).workflow.getLockSet (s.peers a.peer).clusterEvent →
      Granted ((s, a) :: h) a.peer e.tag.uid x (t.peers a.peer).peerToEventMap := by
  intro claim
  let rsp : CommandRsp := ⟨⟨0, 11⟩, ⟨0, 21⟩, ⟨⟨0, 101⟩, .lock⟩, false, emptyUid⟩
  let e : Entry := ⟨2, 0, ⟨0, 1⟩, ⟨0, 11⟩, ⟨⟨0, 101⟩, .exec⟩⟩
  obtain ⟨h, s, a, t, run, -, next, htest⟩ := exists_step_of_replay
    rivals anyStep
    [.start ⟨0, 11⟩ ⟨0, 1⟩ ⟨0, 101⟩, .deliver ⟨0, 11⟩ 0, .start ⟨0, 21⟩ ⟨0, 2⟩ ⟨0, 102⟩,
      .deliver ⟨0, 21⟩ 2, .deliver ⟨0, 21⟩ 1] (.deliver ⟨0, 11⟩ 4)
    (fun h s a t ↦ a.call = .recv (.commandRsp rsp) ∧
      (t.peers a.peer).log = (s.peers a.peer).log ++ [e] ∧
      ⟨0, 2⟩ ∈ (s.peers a.peer).workflow.getLockSet (s.peers a.peer).clusterEvent ∧
      ¬Granted ((s, a) :: h) a.peer e.tag.uid ⟨0, 2⟩ (t.peers a.peer).peerToEventMap)
    (by decide +kernel)
  obtain ⟨received, appended, lock, refused⟩ := htest
  exact refused (claim rivals h s t a rsp e _ run next received appended rfl lock)

end TrustedDcr.System
