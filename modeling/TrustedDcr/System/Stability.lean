import TrustedDcr.Enclave.Patience
import TrustedDcr.System.Timers

/-!
# Leaders that keep in touch

A cluster that follows one leader goes on doing so as long as no follower's clock passes
the least time after it last heard from it: no follower polls, none grants an old poll,
and nothing of a later term is on its way. Only polls granted before could be delivered
to make one stand.
-/

namespace TrustedDcr.System
open TrustedDcr.Msg TrustedDcr.Dcr TrustedDcr.Enclave TrustedDcr.Theory

/-- The continuations of a run all of whose steps meet a condition. -/
inductive Onward (cfg : Config) (C : Hist → World → Action → Prop) (h₀ : Hist) (s₀ : World) :
    Hist → World → Prop
  | here : Onward cfg C h₀ s₀ h₀ s₀
  | step {h : Hist} {s t : World} {a : Action} (on : Onward cfg C h₀ s₀ h s) (meets : C h s a)
      (next : s.step cfg a = some t) : Onward cfg C h₀ s₀ ((s, a) :: h) t

/-- The peer follows the leader in its term, and its clock has not passed the least time. -/
structure InTouch (s : World) (leader : Uid) (T : Nat) (p : Uid) : Prop where
  role : (s.peers p).role = .follower
  term : (s.peers p).term = T
  leader : (s.peers p).leader = leader
  near : (s.peers p).now ≤ (s.peers p).tMin
  patient : (s.peers p).tMin ≤ (s.peers p).t
  clock : (s.peers p).now.toNat + 6000 < 2 ^ 64

/-- One member of the cluster leads, and all others are in touch with it. -/
structure Rallied (cfg : Config) (x leader : Uid) (T : Nat) (s : World) : Prop where
  member : leader ∈ cfg.cluster x
  role : (s.peers leader).role = .leader
  term : (s.peers leader).term = T
  inTouch : ∀ p ∈ cfg.cluster x, p ≠ leader → InTouch s leader T p

instance (s : World) (leader : Uid) (T : Nat) (p : Uid) : Decidable (InTouch s leader T p) :=
  decidable_of_iff ((s.peers p).role = .follower ∧ (s.peers p).term = T ∧
      (s.peers p).leader = leader ∧ (s.peers p).now ≤ (s.peers p).tMin ∧
      (s.peers p).tMin ≤ (s.peers p).t ∧ (s.peers p).now.toNat + 6000 < 2 ^ 64)
    ⟨fun ⟨role, term, leader, near, patient, clock⟩ ↦ ⟨role, term, leader, near, patient, clock⟩,
      fun ⟨role, term, leader, near, patient, clock⟩ ↦ ⟨role, term, leader, near, patient, clock⟩⟩

instance (cfg : Config) (x leader : Uid) (T : Nat) (s : World) :
    Decidable (Rallied cfg x leader T s) :=
  decidable_of_iff (leader ∈ cfg.cluster x ∧ (s.peers leader).role = .leader ∧
      (s.peers leader).term = T ∧ ∀ p ∈ cfg.cluster x, p ≠ leader → InTouch s leader T p)
    ⟨fun ⟨member, role, term, inTouch⟩ ↦ ⟨member, role, term, inTouch⟩,
      fun ⟨member, role, term, inTouch⟩ ↦ ⟨member, role, term, inTouch⟩⟩

/-- The step sets no follower's clock past its least time, nor within six heartbeats of the last
tick, and delivers to no member a poll that was granted before. -/
def Attended (cfg : Config) (x leader : Uid) (net₀ : List Message) (_ : Hist) (s : World)
    (a : Action) : Prop :=
  TermsBelow cfg s ∧
    match a.call with
    | .setTime ticks => a.peer ∈ cfg.cluster x → a.peer ≠ leader →
      ticks ≤ (s.peers a.peer).tMin ∧ ticks.toNat + 6000 < 2 ^ 64
    | .recv (.pollRsp rsp) => rsp.success = true → rsp.target ∈ cfg.cluster x →
      .pollRsp rsp ∉ net₀
    | _ => True

instance (cfg : Config) (x leader : Uid) (net₀ : List Message) (h : Hist) (s : World)
    (a : Action) : Decidable (Attended cfg x leader net₀ h s a) := by
  unfold Attended
  induction a.call using Call.casesOn with
  | recv m => induction m using Message.casesOn <;> infer_instance
  | _ => infer_instance

section
variable {cfg : Config} {h₀ h : Hist} {s₀ s t : World} {a : Action} {x leader p : Uid}
  {T : Nat}

/-- A run continued is a run. -/
theorem Onward.run {C D : Hist → World → Action → Prop} (hC : ∀ h s a, C h s a → D h s a)
    (on : Onward cfg C h₀ s₀ h s) (run : Run cfg D h₀ s₀) : Run cfg D h s := by
  induction on with
  | here => exact run
  | step _ meets next ih => exact ih.step (hC _ _ _ meets) next

/-- All peers and letters of a run are in their places. -/
theorem Run.wired_of_below (run : Run cfg (fun _ s _ ↦ TermsBelow cfg s) h s) : Wired cfg s := by
  induction run with
  | initial => exact .initial cfg
  | step _ below next ih => exact ih.step below next

/-- A leader to whom nothing of a later term is addressed leads until the end of its call. -/
theorem leads_of_moves_current {rcv : Option Message} {o : Oracle} {q : Peer} {v w : View}
    (current : ∀ m l, rcv = some m → m.letter = some l → l.target = v.node.id →
      l.term ≤ v.node.term) (leads : v.node.role = .leader)
    (moves : Relation.ReflTransGen (Move rcv o q) v w) :
    w.node.role = .leader ∧ w.node.term = v.node.term ∧ w.node.id = v.node.id := by
  induction moves with
  | refl => exact ⟨leads, rfl, rfl⟩
  | tail _ move ih =>
    obtain ⟨hrole, hterm, hid⟩ := ih
    cases move with
    | bump received letter addressed higher =>
      have := current _ _ received letter (addressed.trans hid)
      omega
    | stand waits => exact absurd hrole waits
    | _ => exact ⟨by first | exact hrole | rfl, hterm, hid⟩

namespace Rallied

/-- No member's term is a later one. -/
theorem term_eq (rallied : Rallied cfg x leader T s) (hp : p ∈ cfg.cluster x) :
    (s.peers p).term = T := by
  rcases eq_or_ne p leader with rfl | other
  · exact rallied.term
  · exact (rallied.inTouch p hp other).term

/-- So no letter to a member is of one. -/
theorem letter_le (rallied : Rallied cfg x leader T s) (wired : Wired cfg s) {m : Message}
    (hm : m ∈ s.net) {l : Letter} (letter : m.letter = some l) (target : l.target ∈ cfg.cluster x) :
    l.term ≤ T :=
  wired.letter_le hm letter target fun _ hp ↦ Nat.le_of_eq (rallied.term_eq hp)

/-- The leader goes on leading. -/
theorem lead (rallied : Rallied cfg x leader T s) (wired : Wired cfg s)
    (next : s.step cfg a = some t) (own : a.peer = leader) :
    (t.peers leader).role = .leader ∧ (t.peers leader).term = T := by
  subst own
  obtain ⟨allowed, e, goes, hpeers, -⟩ := World.step_cases next
  have current : ∀ m l, a.call.received = some m → m.letter = some l →
      l.target = (s.peers a.peer).id → l.term ≤ (s.peers a.peer).term := by
    intro m l received letter target
    rw [rallied.term]
    refine rallied.letter_le wired (allowed.received m received) letter ?_
    rw [target, show (s.peers a.peer).id = a.peer from (wired.placed a.peer).1]
    exact rallied.member
  obtain ⟨role, term, -⟩ :=
    leads_of_moves_current (v := (s.enclave a.peer).view) current rallied.role goes.moves
  rw [hpeers, Function.update_self]
  exact ⟨role, term.trans rallied.term⟩

/-- A follower goes on following. -/
theorem rests (rallied : Rallied cfg x leader T s)
    (run : Run cfg (fun _ s _ ↦ TermsBelow cfg s) h s)
    (next : s.step cfg a = some t) (hp : a.peer ∈ cfg.cluster x) (other : a.peer ≠ leader)
    (early : ∀ ticks, a.call = .setTime ticks → ticks ≤ (s.peers a.peer).t)
    (refused : ∀ rsp, a.call = .recv (.pollRsp rsp) → rsp.target = a.peer →
      rsp.success = false) : Rests (s.peers a.peer) (t.peers a.peer) := by
  have wired := run.wired_of_below
  obtain ⟨follows, hterm, -, -⟩ := rallied.inTouch a.peer hp other
  have id : (s.peers a.peer).id = a.peer := (wired.placed a.peer).1
  have current {m : Message} (received : a.call = .recv m) {l : Letter} (letter : m.letter = some l)
      (target : l.target = (s.peers a.peer).id) : l.term ≤ (s.peers a.peer).term := by
    rw [hterm]
    refine rallied.letter_le wired ((World.step_cases next).1.received m ?_) letter ?_
    · rw [received]
      rfl
    · rwa [target, id]
  have few : (s.peers a.peer).pollVotes ≤ (s.peers a.peer).clusterSize / 2 := by
    have size : 2 ≤ (s.peers a.peer).clusterSize := by
      rw [show (s.peers a.peer).clusterSize = _ from ((wired.placed a.peer).card_cluster hp).symm]
      exact Finset.one_lt_card.mpr ⟨a.peer, hp, leader, rallied.member, other⟩
    have := (run.counts follows).few
    omega
  have keep {y : Ecall Unit} (hy : wp y (fun _ e ↦ Same Peer.posture (s.enclave a.peer) e)
      (s.enclave a.peer)) : wp y (fun _ e ↦ Rests (s.peers a.peer) e.self) (s.enclave a.peer) :=
    wp_mono hy fun _ _ ↦ Rests.of_posture
  have call : wp (a.call.body a.oracle) (fun _ e ↦ Rests (s.peers a.peer) e.self)
      (s.enclave a.peer) := by
    cases hcall : a.call with
    | setTime ticks => exact rests_setTime (early ticks hcall)
    | execute event => exact keep (posture_execute event _)
    | getHistory => exact keep (posture_getHistory _)
    | recv msg =>
      cases msg with
      | commandReq req => exact keep (posture_recvCommandReq follows)
      | commandRsp rsp => exact keep (posture_recvCommandRsp follows)
      | logReq req => exact keep (posture_recvLogReq true req _)
      | logRsp rsp => exact keep (posture_recvLogRsp rsp _)
      | appendReq req => exact rests_recvAppendReq follows (current hcall rfl)
      | appendRsp rsp => exact keep (posture_recvAppendRsp follows (current hcall rfl))
      | pollReq req => exact keep (posture_recvPollReq (current hcall rfl))
      | pollRsp rsp =>
        refine keep (posture_recvPollRsp follows (current hcall rfl) (fun target ↦ ?_) few)
        exact refused rsp hcall (target.trans id)
      | electionReq req => exact keep (posture_recvElectionReq (current hcall rfl))
      | electionRsp rsp => exact keep (posture_recvElectionRsp follows (current hcall rfl))
  obtain ⟨-, e, rests, hpeers, -⟩ := World.step_of_wp next call
  rw [hpeers, Function.update_self]
  exact rests

/-- The grants of polls on their way to members. -/
def GrantsWithin (cfg : Config) (x : Uid) (net₀ net : List Message) : Prop :=
  ∀ rsp, .pollRsp rsp ∈ net → rsp.success = true → rsp.target ∈ cfg.cluster x → .pollRsp rsp ∈ net₀

/-- An attended step of a follower. -/
theorem attend (rallied : Rallied cfg x leader T s)
    (run : Run cfg (fun _ s _ ↦ TermsBelow cfg s) h s) {net₀ : List Message}
    (within : GrantsWithin cfg x net₀ s.net) (attended : Attended cfg x leader net₀ h s a)
    (next : s.step cfg a = some t) (hp : a.peer ∈ cfg.cluster x) (other : a.peer ≠ leader) :
    InTouch t leader T a.peer := by
  obtain ⟨role, term, hleader, near, patient, clock⟩ := rallied.inTouch a.peer hp other
  obtain ⟨-, attends⟩ := attended
  have early : ∀ ticks, a.call = .setTime ticks → ticks ≤ (s.peers a.peer).t := by
    intro ticks hcall
    rw [hcall] at attends
    exact UInt64.le_trans (attends hp other).1 patient
  have refused : ∀ rsp, a.call = .recv (.pollRsp rsp) → rsp.target = a.peer →
      rsp.success = false := by
    intro rsp hcall target
    rw [hcall] at attends
    by_contra granted
    have granted : rsp.success = true := by simpa using granted
    have member : rsp.target ∈ cfg.cluster x := target ▸ hp
    have sent : .pollRsp rsp ∈ s.net := (World.step_cases next).1.received _ (by rw [hcall]; rfl)
    exact attends granted member (within rsp sent granted member)
  have rests := rallied.rests run next hp other early refused
  obtain ⟨now, tMin, -, -, -⟩ := World.step_times next
  -- the clock that the call sets is within the least time, which is within the range of clocks
  have set : a.call.clock (s.peers a.peer).now ≤ (s.peers a.peer).tMin ∧
      (a.call.clock (s.peers a.peer).now).toNat + 6000 < 2 ^ 64 := by
    unfold Call.clock
    split
    · next ticks hcall =>
      rw [hcall] at attends
      exact attends hp other
    · exact ⟨near, clock⟩
  refine ⟨rests.role.trans role, rests.term.trans term, rests.leader.trans hleader, ?_, ?_,
    now ▸ set.2⟩
  · rw [now]
    rcases tMin with kept | renewed
    · rw [kept]
      exact set.1
    · rw [renewed, UInt64.le_iff_toNat_le, toNat_add_deltaMinTime set.2]
      exact Nat.le_add_right _ _
  · rcases rests.timers with kept | ⟨renewed, r, draw, deadline⟩
    · simp only [Prod.mk.injEq] at kept
      rw [kept.1, kept.2]
      exact patient
    · have hr : r.toNat < 4000 := draw
      have htMin := toNat_add_deltaMinTime clock
      rw [← renewed] at htMin
      rw [deadline, UInt64.le_iff_toNat_le, UInt64.toNat_add, htMin]
      omega

/-- An attended step keeps the cluster rallied, and grants no poll in it. -/
theorem step (rallied : Rallied cfg x leader T s) (run : Run cfg (fun _ s _ ↦ TermsBelow cfg s) h s)
    {net₀ : List Message} (within : GrantsWithin cfg x net₀ s.net)
    (attended : Attended cfg x leader net₀ h s a) (next : s.step cfg a = some t) :
    Rallied cfg x leader T t ∧ GrantsWithin cfg x net₀ t.net := by
  have wired := run.wired_of_below
  have rallied' : Rallied cfg x leader T t := by
    have lead : (t.peers leader).role = .leader ∧ (t.peers leader).term = T := by
      by_cases own : a.peer = leader
      · exact rallied.lead wired next own
      · rw [World.step_other next own]
        exact ⟨rallied.role, rallied.term⟩
    refine ⟨rallied.member, lead.1, lead.2, fun p hp other ↦ ?_⟩
    by_cases own : a.peer = p
    · subst own
      exact rallied.attend run within attended next hp other
    · obtain ⟨role, term, hleader, near, patient, clock⟩ := rallied.inTouch p hp other
      rw [← World.step_other next own] at role term hleader near patient clock
      exact ⟨role, term, hleader, near, patient, clock⟩
  refine ⟨rallied', fun rsp hrsp granted target ↦ ?_⟩
  obtain ⟨e, -, wiring, -, hnet⟩ := wired.call attended.1 next
  rw [hnet] at hrsp
  rcases List.mem_append.mp hrsp with old | new
  · exact within rsp old granted target
  · -- whoever grants in the cluster would be a follower whose least time has passed
    exfalso
    obtain ⟨-, -, inside, -⟩ := wiring.posted _ new _ rfl
    have member : a.peer ∈ cfg.cluster x := by
      have hp := Config.mem_cluster_clusterOf (World.step_cases next).1.1
      rwa [(Config.clusterOf_of_mem inside).symm.trans (Config.clusterOf_of_mem target)] at hp
    have sent : .pollRsp rsp ∈ sentBy s t := by
      unfold sentBy
      rwa [hnet, List.drop_left]
    obtain ⟨-, -, -, grants, -⟩ := World.step_times next
    obtain ⟨passed, follows⟩ := grants _ sent granted
    have follows : (s.peers a.peer).role = .follower := by
      refine follows.resolve_right fun later ↦ ?_
      rw [rallied.term_eq member, rallied'.term_eq member] at later
      exact Nat.lt_irrefl _ later
    have other : a.peer ≠ leader := by
      rintro rfl
      exact absurd (rallied.role.symm.trans follows) (by decide)
    exact UInt64.not_lt.mpr (rallied.inTouch a.peer member other).near passed

end Rallied

end

end TrustedDcr.System
