import TrustedDcr.System.Network

/-!
# Candidates that keep timing out

A candidate that hears nothing stands again at every timeout. Its term is a 32-bit
counter, so it comes back to terms long past.
-/

namespace TrustedDcr.System
open TrustedDcr.Msg TrustedDcr.Dcr TrustedDcr.Enclave TrustedDcr.Theory

/-- A candidate right after it stood, with time left for all later terms. -/
def JustStood (p : Peer) : Prop :=
  p.role = .candidate ∧ p.endorsement = emptyUid ∧ p.pollVotes = 1 ∧ p.electionVotes = 1 ∧
    p.leader = p.id ∧ p.leaderMap[p.clusterEvent]? = some p.id ∧ p.log ≠ [] ∧ p.term < 2 ^ 32 ∧
    p.now ≠ 0 ∧ p.tMin = p.now + deltaMinTime ∧ p.t = p.now + deltaMinTime ∧
    p.now.toNat < 2 ^ 32

instance (p : Peer) : Decidable (JustStood p) := inferInstanceAs (Decidable (_ ∧ _))

/-- The candidate after `k` more timeouts, each as early as it can be. -/
def timedOut (p : Peer) (k : Nat) : Peer :=
  { p with
    term := (p.term + k) % 2 ^ 32
    now := p.now + 2001 * UInt64.ofNat k
    tMin := p.tMin + 2001 * UInt64.ofNat k
    t := p.t + 2001 * UInt64.ofNat k }

private theorem timedOut_zero {p : Peer} (stood : JustStood p) : timedOut p 0 = p := by
  have hterm : (p.term + 0) % 2 ^ 32 = p.term := Nat.mod_eq_of_lt stood.2.2.2.2.2.2.2.1
  unfold timedOut
  rw [hterm]
  simp

private theorem insert_of_getElem? {V : Type} {m : UidMap V} {k : Uid} {v : V}
    (h : m[k]? = some v) : m.insert k v = m := by
  apply Std.ExtTreeMap.ext_getElem?
  intro a
  rw [Std.ExtTreeMap.getElem?_insert]
  split
  · next hk => rw [← Std.LawfulEqCmp.compare_eq_iff_eq.mp hk, h]
  · rfl

section
variable {p : Peer} {k : Nat}

/-- The clock does not wrap. -/
theorem toNat_timedOut (stood : JustStood p) (hk : k < 2 ^ 32) :
    (timedOut p k).now.toNat = p.now.toNat + 2001 * k ∧
      (timedOut p k).t.toNat = p.now.toNat + 2000 + 2001 * k := by
  obtain ⟨-, -, -, -, -, -, -, -, -, -, ht, hlt⟩ := stood
  have hofNat : (2001 * UInt64.ofNat k).toNat = 2001 * k := by
    rw [UInt64.toNat_mul, UInt64.toNat_ofNat']
    change 2001 * (k % 2 ^ 64) % 2 ^ 64 = _
    omega
  have hdelta : deltaMinTime.toNat = 2000 := by decide
  constructor
  · change (p.now + 2001 * UInt64.ofNat k).toNat = _
    rw [UInt64.toNat_add, hofNat]
    omega
  · change (p.t + 2001 * UInt64.ofNat k).toNat = _
    rw [ht, UInt64.toNat_add, UInt64.toNat_add, hofNat, hdelta]
    omega

/-- A timeout is a clean start in the next term. -/
theorem timedOut_succ (stood : JustStood p) :
    { ({ timedOut p k with
        now := (timedOut p k).t + 1
        tMin := (timedOut p k).t + 1 + deltaMinTime
        t := (timedOut p k).t + 1 + deltaMinTime } : Peer).updateTerm
          (((timedOut p k).term + 1) % 2 ^ 32) p.id with role := .candidate } =
      timedOut p (k + 1) := by
  obtain ⟨hrole, hend, hpoll, hvotes, hleader, hmap, -, -, -, htMin, ht, -⟩ := stood
  have hterm : ((p.term + k) % 2 ^ 32 + 1) % 2 ^ 32 = (p.term + (k + 1)) % 2 ^ 32 := by omega
  have hnow : p.t + 2001 * UInt64.ofNat k + 1 = p.now + 2001 * UInt64.ofNat (k + 1) := by
    rw [ht, UInt64.ofNat_add]
    unfold deltaMinTime deltaHeartbeat
    grind
  have hnext : p.now + 2001 * UInt64.ofNat (k + 1) + deltaMinTime =
      p.now + deltaMinTime + 2001 * UInt64.ofNat (k + 1) := by grind
  have hmap' : p.leaderMap.insert p.clusterEvent p.id = p.leaderMap := insert_of_getElem? hmap
  cases p
  simp only at hrole hend hpoll hvotes hleader hmap' htMin ht hnow hnext
  subst hrole hend hpoll hvotes hleader htMin ht
  simp only [timedOut, Peer.updateTerm, hterm, hmap', hnow, hnext]

/-- One more timeout. -/
theorem runs_setTime_timedOut (stood : JustStood p) (hk : k < 2 ^ 32) :
    Runs (setTime silent ((timedOut p k).t + 1)) (fun _ s ↦ s.self = timedOut p (k + 1))
      ⟨timedOut p k, [], [], []⟩ := by
  obtain ⟨hnowNat, htNat⟩ := toNat_timedOut stood hk
  have hlog := stood.2.2.2.2.2.2.1
  have hsmall := stood.2.2.2.2.2.2.2.2.2.2.2
  have hpos : p.now.toNat ≠ 0 := fun h ↦ stood.2.2.2.2.2.2.2.2.1 (UInt64.toNat_inj.mp h)
  have hdue : (timedOut p k).t + 1 > (timedOut p k).t := by
    rw [gt_iff_lt, UInt64.lt_iff_toNat_lt, UInt64.toNat_add, htNat]
    change _ < (_ + 1) % 2 ^ 64
    omega
  have hrunning : ((timedOut p k).now == 0) = false := by
    rw [beq_eq_false_iff_ne]
    intro h
    have hz : (timedOut p k).now.toNat = 0 := congrArg UInt64.toNat h
    omega
  have hrole : (timedOut p k).role = .candidate := stood.1
  have hzero : silent.timeout.toUInt64 % deltaMaxTime = 0 := by decide
  unfold setTime
  refine runs_bind_getSelf (runs_bind_modifySelf fun s hs ↦ runs_bind_getSelf ?_)
  rw [if_pos (by rw [hs, hrunning]; simp [hdue])]
  unfold timeout
  refine runs_bind_getSelf ?_
  rw [if_neg (by rw [hs]; simp [hrole])]
  refine runs_bind_getSelf ?_
  rw [if_pos (by rw [hs]; simp [hrole])]
  have stands : Runs (startElection silent)
      (fun _ u ↦ u.self = timedOut p (k + 1)) s := by
    unfold startElection updateTimeout
    refine runs_bind_modifySelf fun s₁ h₁ ↦ runs_bind_modifySelf fun s₂ h₂ ↦
      runs_bind_modifySelf fun s₃ h₃ ↦ runs_bind_getSelf ?_
    have hs₃ : s₃.self = timedOut p (k + 1) := by
      rw [h₃, h₂, h₁, hs]
      dsimp only
      rw [if_neg (by simp [hrole]), hzero, UInt64.add_zero]
      exact timedOut_succ stood
    have hlast : s₃.self.lastEntry = .ok (p.log.getLast hlog) := by
      rw [hs₃]
      unfold Peer.lastEntry
      rw [show (timedOut p (k + 1)).log = p.log from rfl, List.getLast?_eq_some_getLast hlog]
    refine (Runs.lift (Q := fun _ u ↦ u = s₃) hlast rfl).bind ?_
    rintro last _ rfl
    exact Runs.modify hs₃
  refine stands.bind fun _ u hu ↦ runs_bind_getSelf ?_
  rw [if_neg (by rw [hu]; simp [show (timedOut p (k + 1)).role = .candidate from stood.1])]
  exact Runs.pure hu

end

/-! ### Runs -/

/-- A candidate can time out as often as it takes, under any condition that only its own changes
could break. -/
theorem Run.timeouts {cfg : Config} {D : (Uid → Peer) → Prop} {h : Hist} {s : World}
    (run : Run cfg (fun _ s _ ↦ D s.peers) h s) {p : Uid} (hp : p ∈ cfg.peerToEventMap)
    (stood : JustStood (s.peers p))
    (holds : ∀ k, D (Function.update s.peers p (timedOut (s.peers p) k))) {k : Nat}
    (hk : k ≤ 2 ^ 32) : ∃ h' s', Run cfg (fun _ s _ ↦ D s.peers) h' s' ∧
      s'.peers = Function.update s.peers p (timedOut (s.peers p) k) ∧ s.net ⊆ s'.net := by
  induction k with
  | zero =>
    refine ⟨h, s, run, ?_, fun _ hm ↦ hm⟩
    rw [timedOut_zero stood, Function.update_eq_self]
  | succ k ih =>
    obtain ⟨h', s', run', hpeers, hnet⟩ := ih (by omega)
    obtain ⟨_, e, hrun, he⟩ := runs_setTime_timedOut stood (k := k) hk
    let a : Action := ⟨p, .setTime ((timedOut (s.peers p) k).t + 1), silent⟩
    have allowed : a.Allowed cfg s' := ⟨hp, trivial⟩
    have returns : a.call.body a.oracle (s'.enclave a.peer) = .ok (⟨⟩, e) := by
      change setTime silent _ (s'.enclave p) = _
      unfold World.enclave
      rw [hpeers, Function.update_self]
      exact hrun
    have next := World.step_eq_some allowed returns
    refine ⟨_, _, run'.step (hpeers ▸ holds k) next, ?_, ?_⟩
    · rw [he, hpeers, Function.update_idem]
    · exact fun m hm ↦ List.mem_append_left _ (hnet hm)

/-- A schedule that runs from one state runs from every state with the same peers and more messages
sent. -/
theorem Run.resume {cfg : Config} {D : (Uid → Peer) → Prop} [DecidablePred D] {h g : Hist}
    {s w : World} (run : Run cfg (fun _ s _ ↦ D s.peers) h s) (hpeers : s.peers = w.peers)
    (hnet : w.net ⊆ s.net) {cues : List Cue} {r : Hist × World}
    (hr : replay cfg (fun _ s _ ↦ D s.peers) g w cues = some r) :
    ∃ h' s', Run cfg (fun _ s _ ↦ D s.peers) h' s' ∧ s'.peers = r.2.peers := by
  induction cues generalizing h s g w with
  | nil =>
    rw [replay, Option.some.injEq] at hr
    exact ⟨h, s, run, by rw [hpeers, ← hr]⟩
  | cons cue cues ih =>
    rw [replay] at hr
    split at hr
    · next a _ =>
      split at hr
      · next holds =>
        split at hr
        · next w' next =>
          have allowed : a.Allowed cfg s := by
            have ha := (World.step_cases next).1
            refine ⟨ha.1, ?_⟩
            have hm := ha.2
            revert hm
            cases a.call with
            | recv msg => exact fun hm ↦ hnet hm
            | _ => exact id
          have hnext : ∃ s', s.step cfg a = some s' ∧ s'.peers = w'.peers ∧ w'.net ⊆ s'.net := by
            unfold World.step at next ⊢
            rw [if_pos allowed, hpeers]
            split at next
            · split at next
              · next e he =>
                cases next
                exact ⟨_, rfl, rfl, List.append_subset.mpr ⟨fun m hm ↦
                  List.mem_append_left _ (hnet hm), List.subset_append_right _ _⟩⟩
              · cases next
            · cases next
          obtain ⟨s', hs', hpeers', hnet'⟩ := hnext
          exact ih (run.step (hpeers ▸ holds) hs') hpeers' hnet' hr
        · cases hr
      · cases hr
    · cases hr

/-- Two schedules with any number of timeouts of one candidate between them give a run. -/
theorem exists_run_of_timeouts (cfg : Config) (D : (Uid → Peer) → Prop) [DecidablePred D]
    (cues cues' : List Cue) {p : Uid} {k : Nat} (hk : k ≤ 2 ^ 32) (test : (Uid → Peer) → Prop)
    (holds : ∀ peers k, D peers → JustStood (peers p) →
      D (Function.update peers p (timedOut (peers p) k)))
    (he : ∃ r ∈ replay cfg (fun _ s _ ↦ D s.peers) [] (World.initial cfg) cues,
      p ∈ cfg.peerToEventMap ∧ D r.2.peers ∧ JustStood (r.2.peers p) ∧
        ∃ r' ∈ replay cfg (fun _ s _ ↦ D s.peers) []
          ⟨Function.update r.2.peers p (timedOut (r.2.peers p) k), r.2.net, r.2.uids⟩ cues',
          D r'.2.peers ∧ test r'.2.peers) :
    ∃ h s, Run cfg (fun _ s _ ↦ D s.peers) h s ∧ D s.peers ∧ test s.peers := by
  obtain ⟨r, hr, hp, hD, stood, r', hr', hD', ht⟩ := he
  obtain ⟨h, s, run, hpeers, hnet⟩ := (run_of_replay .initial hr).timeouts hp stood
    (fun k ↦ holds _ k hD stood) hk
  obtain ⟨h', s', run', hpeers'⟩ := run.resume
    (w := ⟨Function.update r.2.peers p (timedOut (r.2.peers p) k), r.2.net, r.2.uids⟩) hpeers hnet hr'
  exact ⟨h', s', run', hpeers' ▸ hD', hpeers' ▸ ht⟩

end TrustedDcr.System
