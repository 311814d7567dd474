import Mathlib.Data.Finset.Dedup
import TrustedDcr.System.Start
import TrustedDcr.System.Step

/-!
# Clusters and the letters between their members

A peer never leaves its cluster, and a message that carries a term passes
between two different members of one cluster, in a term its sender has reached.
So no counter wraps while every peer is below the last term.
-/

namespace TrustedDcr.System
open TrustedDcr.Msg TrustedDcr.Dcr TrustedDcr.Enclave TrustedDcr.Theory

namespace Config

variable {cfg : Config} {x p : Uid}

/-- The cluster of an event. -/
def cluster (cfg : Config) (x : Uid) : Finset Uid := (cfg.members x).toFinset

/-- The members of a cluster are the peers mapped to its event. -/
theorem mem_cluster : p ∈ cfg.cluster x ↔ cfg.peerToEventMap[p]? = some x := by
  unfold cluster members findClusterMembers
  simp [Std.ExtTreeMap.mem_toList_iff_getElem?_eq_some]

/-- Members of clusters are peers. -/
theorem mem_of_mem_cluster (h : p ∈ cfg.cluster x) : p ∈ cfg.peerToEventMap := by
  rw [Std.ExtTreeMap.mem_iff_isSome_getElem?, mem_cluster.mp h]
  rfl

/-- A cluster lists no member twice. -/
theorem nodup_members : (cfg.members x).Nodup := by
  have hkeys : (cfg.peerToEventMap.toList.map Prod.fst).Nodup := by
    rw [Std.ExtTreeMap.map_fst_toList_eq_keys]
    exact Std.ExtTreeMap.nodup_keys
  exact hkeys.sublist (List.filter_sublist.map _)

/-- A cluster has as many members as it lists. -/
theorem card_cluster : (cfg.cluster x).card = (cfg.members x).length :=
  List.toFinset_card_of_nodup nodup_members

/-- A peer is in one cluster only. -/
theorem clusterOf_of_mem (h : p ∈ cfg.cluster x) : cfg.clusterOf p = x := by
  unfold clusterOf
  rw [Std.ExtTreeMap.getD_eq_getD_getElem?, mem_cluster.mp h]
  rfl

/-- Every peer is a member of its own cluster. -/
theorem mem_cluster_clusterOf (h : p ∈ cfg.peerToEventMap) : p ∈ cfg.cluster (cfg.clusterOf p) := by
  unfold clusterOf
  rw [mem_cluster, Std.ExtTreeMap.getD_eq_getD_getElem?, Std.ExtTreeMap.getElem?_eq_some_getElem h]
  rfl

end Config

/-- No term has reached the last one. -/
def TermsBelow (cfg : Config) (s : World) : Prop :=
  ∀ p ∈ cfg.peerToEventMap.keys, (s.peers p).term < 2 ^ 32 - 1

instance (cfg : Config) (s : World) : Decidable (TermsBelow cfg s) :=
  inferInstanceAs (Decidable (∀ p ∈ cfg.peerToEventMap.keys, _))

private theorem TermsBelow.lt {cfg : Config} {s : World} (h : TermsBelow cfg s) {x p : Uid}
    (hp : p ∈ cfg.cluster x) : (s.peers p).term < 2 ^ 32 - 1 :=
  h p (Std.ExtTreeMap.mem_keys.mpr (Config.mem_of_mem_cluster hp))

/-- Identity and cluster of a peer, which no call changes. -/
def Placed (cfg : Config) (p : Uid) (n : Node) : Prop :=
  n.id = p ∧ n.clusterMembers = cfg.members (cfg.clusterOf p) ∧
    n.clusterSize = (cfg.members (cfg.clusterOf p)).length

/-- A peer knows the size of its cluster. -/
theorem Placed.card_cluster {cfg : Config} {p x : Uid} {n : Node} (h : Placed cfg p n)
    (hp : p ∈ cfg.cluster x) : (cfg.cluster x).card = n.clusterSize := by
  rw [Config.card_cluster, ← Config.clusterOf_of_mem hp]
  exact h.2.2.symm

/-- A peer that counts itself alone has no other in its cluster. -/
theorem Placed.eq_of_alone {cfg : Config} {p q x : Uid} {n : Node} (h : Placed cfg p n)
    (alone : n.clusterSize = 1) (hp : p ∈ cfg.cluster x) (hq : q ∈ cfg.cluster x) : q = p := by
  have hcard := (h.card_cluster hp).trans alone
  exact Finset.card_le_one.mp (Nat.le_of_eq hcard) _ hq _ hp

/-- The letter passes inside one cluster, in a term up to the given term of its source. -/
def Posted (cfg : Config) (term : Uid → Nat) (l : Letter) : Prop :=
  (∃ x, l.source ∈ cfg.cluster x ∧ l.target ∈ cfg.cluster x) ∧ l.source ≠ l.target ∧
    l.term ≤ term l.source

/-- Every peer is in its place, and every letter passes inside a cluster. -/
structure Wired (cfg : Config) (s : World) : Prop where
  placed : ∀ p, Placed cfg p (s.peers p).node
  posted : ∀ m ∈ s.net, ∀ l, m.letter = some l → Posted cfg (fun p ↦ (s.peers p).term) l

/-- What holds during a call of `p`, whose cluster sees `v`. -/
structure Wiring (cfg : Config) (s : World) (p : Uid) (v : View) : Prop where
  placed : Placed cfg p v.node
  grown : (s.peers p).term ≤ v.node.term
  posted : ∀ m ∈ v.sent, ∀ l, m.letter = some l → l.source = p ∧ l.source ≠ l.target ∧
    l.target ∈ cfg.cluster (cfg.clusterOf p) ∧ l.term ≤ v.node.term

section
variable {cfg : Config} {s : World} {p x : Uid} {rcv : Option Message} {o : Oracle}

/-- A received letter passed the network. -/
theorem Wired.received (h : Wired cfg s) (hr : ∀ m, rcv = some m → m ∈ s.net) {m : Message}
    (hm : rcv = some m) {l : Letter} (hl : m.letter = some l) :
    Posted cfg (fun p ↦ (s.peers p).term) l := h.posted m (hr m hm) l hl

/-- A letter to a member comes from another member. -/
theorem Wired.source_mem (h : Wired cfg s) (hr : ∀ m, rcv = some m → m ∈ s.net) {m : Message}
    (received : rcv = some m) {l : Letter} (letter : m.letter = some l)
    (target : l.target ∈ cfg.cluster x) : l.source ∈ cfg.cluster x ∧ l.source ≠ l.target := by
  obtain ⟨⟨y, hs, ht⟩, hne, -⟩ := h.received hr received letter
  obtain rfl : y = x := (Config.clusterOf_of_mem ht).symm.trans (Config.clusterOf_of_mem target)
  exact ⟨hs, hne⟩

/-- A letter to a member is of no later term than all members are. -/
theorem Wired.letter_le (h : Wired cfg s) {m : Message} (hm : m ∈ s.net) {l : Letter}
    (letter : m.letter = some l) (target : l.target ∈ cfg.cluster x) {T : Nat}
    (latest : ∀ q ∈ cfg.cluster x, (s.peers q).term ≤ T) : l.term ≤ T := by
  obtain ⟨⟨y, hs, ht⟩, -, le⟩ := h.posted m hm l letter
  obtain rfl : y = x := (Config.clusterOf_of_mem ht).symm.trans (Config.clusterOf_of_mem target)
  exact le.trans (latest _ hs)

/-- A peer that stands raises its term by one. -/
theorem Wired.term_succ (h : Wired cfg s) (below : TermsBelow cfg s)
    (hr : ∀ m, rcv = some m → m ∈ s.net) (hp : p ∈ cfg.cluster x) {n : Node}
    (known : n.term = (s.peers p).term ∨
      ∃ m l, rcv = some m ∧ m.letter = some l ∧ n.term = l.term) :
    (n.term + 1) % 2 ^ 32 = n.term + 1 := by
  have hlt : n.term < 2 ^ 32 - 1 := by
    rcases known with hk | ⟨m, l, hm, hl, hk⟩
    · rw [hk]
      exact below.lt hp
    · obtain ⟨⟨y, hs, -⟩, -, hle⟩ := h.received hr hm hl
      rw [hk]
      exact Nat.lt_of_le_of_lt hle (below.lt hs)
  exact Nat.mod_eq_of_lt (by omega)

/-- The sender of an addressed letter answers within its cluster. -/
theorem Wired.target_mem (h : Wired cfg s) (hr : ∀ m, rcv = some m → m ∈ s.net)
    (hp : p ∈ cfg.cluster x) {n : Node} (hn : Placed cfg p n) {l : Letter}
    (hl : Addressed rcv n l) : l.source ≠ l.target ∧ l.target ∈ cfg.cluster x := by
  obtain ⟨hid, hmembers, -⟩ := hn
  obtain ⟨hsource, -, ⟨hin, hne⟩ | ⟨m, r, hm, hletter, htarget, hanswer⟩⟩ := hl
  · rw [hsource]
    refine ⟨Ne.symm hne, ?_⟩
    rw [hmembers, Config.clusterOf_of_mem hp] at hin
    exact List.mem_toFinset.mpr hin
  · obtain ⟨⟨y, hs, ht⟩, hne, -⟩ := h.received hr hm hletter
    rw [hsource, ← htarget, ← hanswer]
    refine ⟨Ne.symm hne, ?_⟩
    rw [htarget, hid] at ht
    rwa [← Config.clusterOf_of_mem hp, Config.clusterOf_of_mem ht]

/-- A move keeps the letters of the call inside the cluster. -/
theorem Wiring.move (h : Wired cfg s) (below : TermsBelow cfg s)
    (hr : ∀ m, rcv = some m → m ∈ s.net) (hp : p ∈ cfg.cluster x) {v w : View}
    (hv : Wiring cfg s p v) (move : Move rcv o (s.peers p) v w) : Wiring cfg s p w := by
  obtain ⟨placed, grown, posted⟩ := hv
  have answer {l : Letter} (ha : Addressed rcv v.node l) : l.source = p ∧ l.source ≠ l.target ∧
        l.target ∈ cfg.cluster (cfg.clusterOf p) ∧ l.term ≤ v.node.term := by
    obtain ⟨hne, ht⟩ := h.target_mem hr hp placed ha
    rw [Config.clusterOf_of_mem hp]
    exact ⟨ha.1.trans placed.1, hne, ht, Nat.le_of_eq ha.2.1⟩
  cases move with
  | say ms ds spoken =>
    refine ⟨placed, grown, fun m hm l hl ↦ ?_⟩
    rcases List.mem_append.mp hm with hm | hm
    · exact posted m hm l hl
    · exact answer ((spoken m hm).1 l hl)
  | bump received letter addressed higher =>
    refine ⟨placed, grown.trans (Nat.le_of_lt higher), fun m hm l hl ↦ ?_⟩
    obtain ⟨hs, hne, ht, hle⟩ := posted m hm l hl
    exact ⟨hs, hne, ht, hle.trans (Nat.le_of_lt higher)⟩
  | stand waits known =>
    have hterm := h.term_succ below hr hp known
    refine ⟨placed, ?_, fun m hm l hl ↦ ?_⟩
    · dsimp only
      omega
    · obtain ⟨hs, hne, ht, hle⟩ := posted m hm l hl
      refine ⟨hs, hne, ht, ?_⟩
      dsimp only
      omega
  | grant received addressed term =>
    refine ⟨placed, grown, fun m hm l hl ↦ ?_⟩
    rcases List.mem_append.mp hm with hm | hm
    · exact posted m hm l hl
    · obtain rfl := List.mem_singleton.mp hm
      obtain rfl := Option.some.inj hl
      exact answer ⟨rfl, rfl, Or.inr ⟨_, _, received, rfl, addressed, rfl⟩⟩
  | accept received addressed term =>
    refine ⟨placed, grown, fun m hm l hl ↦ ?_⟩
    rcases List.mem_append.mp hm with hm | hm
    · exact posted m hm l hl
    · obtain rfl := List.mem_singleton.mp hm
      obtain rfl := Option.some.inj hl
      exact answer ⟨rfl, rfl, Or.inr ⟨_, _, received, rfl, addressed, rfl⟩⟩
  | count | elect | append | commit | commitAlone => exact ⟨placed, grown, posted⟩

/-- So does a call. -/
theorem Wiring.moves (h : Wired cfg s) (below : TermsBelow cfg s)
    (hr : ∀ m, rcv = some m → m ∈ s.net) (hp : p ∈ cfg.cluster x) {v w : View}
    (hv : Wiring cfg s p v) (moves : Relation.ReflTransGen (Move rcv o (s.peers p)) v w) :
    Wiring cfg s p w := by
  induction moves with
  | refl => exact hv
  | tail _ move ih => exact ih.move h below hr hp move

/-- What every move keeps, whatever moves are still ahead, the call keeps. -/
theorem Wiring.keeps (h : Wired cfg s) (below : TermsBelow cfg s)
    (hr : ∀ m, rcv = some m → m ∈ s.net) (hp : p ∈ cfg.cluster x) {Q : View → Prop} {u e : View}
    (keeps : ∀ v w, Wiring cfg s p v → Q v → Move rcv o (s.peers p) v w →
      Relation.ReflTransGen (Move rcv o (s.peers p)) w e → Q w)
    (hu : Wiring cfg s p u) (start : Q u)
    (moves : Relation.ReflTransGen (Move rcv o (s.peers p)) u e) : Q e := by
  have invariant : ∀ v, Relation.ReflTransGen (Move rcv o (s.peers p)) u v →
      Relation.ReflTransGen (Move rcv o (s.peers p)) v e → Q v := by
    intro v before
    induction before with
    | refl => exact fun _ ↦ start
    | tail before move ih =>
      exact fun after ↦ keeps _ _ (hu.moves h below hr hp before) (ih (after.head move)) move after
  exact invariant e moves .refl

/-- Nothing was sent when a call starts. -/
theorem Wiring.start (h : Wired cfg s) (p : Uid) : Wiring cfg s p (s.enclave p).view :=
  ⟨h.placed p, Nat.le_refl _, fun _ hm ↦ nomatch hm⟩

end

/-- What a call receives was sent. -/
theorem Action.Allowed.received {cfg : Config} {s : World} {a : Action} (h : a.Allowed cfg s) :
    ∀ m, a.call.received = some m → m ∈ s.net := by
  intro m hm
  obtain ⟨-, h⟩ := h
  rw [Call.eq_recv hm] at h
  exact h

/-- All peers start in their places. -/
theorem Wired.initial (cfg : Config) : Wired cfg (World.initial cfg) := by
  refine ⟨fun p ↦ ?_, fun m hm ↦ nomatch hm⟩
  rw [show (World.initial cfg).peers p = configured cfg p from rfl, (fresh_configured cfg p).node]
  exact ⟨rfl, rfl, rfl⟩

/-- A call as moves of the calling peer, which is wired to its end. -/
theorem Wired.call {cfg : Config} {s t : World} {a : Action} (h : Wired cfg s)
    (below : TermsBelow cfg s) (next : s.step cfg a = some t) : ∃ e : EnclaveState,
      Relation.ReflTransGen (Move a.call.received a.oracle (s.peers a.peer))
        (s.enclave a.peer).view e.view ∧
      Wiring cfg s a.peer e.view ∧ t.peers = Function.update s.peers a.peer e.self ∧
      t.net = s.net ++ e.sent := by
  obtain ⟨allowed, e, goes, hpeers, hnet, -⟩ := World.step_cases next
  have hp := Config.mem_cluster_clusterOf allowed.1
  have hw := (Wiring.start h a.peer).moves h below allowed.received hp goes.moves
  exact ⟨e, goes.moves, hw, hpeers, hnet⟩

/-- No step lowers a term. -/
theorem Wired.term_le {cfg : Config} {s t : World} {a : Action} (h : Wired cfg s)
    (below : TermsBelow cfg s) (next : s.step cfg a = some t) (q : Uid) :
    (s.peers q).term ≤ (t.peers q).term := by
  obtain ⟨e, -, hw, hpeers, -⟩ := h.call below next
  rw [hpeers]
  rcases eq_or_ne q a.peer with rfl | hq
  · rw [Function.update_self]
    exact hw.grown
  · rw [Function.update_of_ne hq]

/-- A step keeps every peer in its place and every letter inside a cluster. -/
theorem Wired.step {cfg : Config} {s t : World} {a : Action} (h : Wired cfg s)
    (below : TermsBelow cfg s) (next : s.step cfg a = some t) : Wired cfg t := by
  have hp := Config.mem_cluster_clusterOf (World.step_cases next).1.1
  have grown := h.term_le below next
  obtain ⟨e, -, hw, hpeers, hnet⟩ := h.call below next
  constructor
  · intro q
    rw [hpeers]
    rcases eq_or_ne q a.peer with rfl | hq
    · rw [Function.update_self]
      exact hw.placed
    · rw [Function.update_of_ne hq]
      exact h.placed q
  · intro m hm l hl
    rw [hnet] at hm
    rcases List.mem_append.mp hm with hm | hm
    · obtain ⟨hcluster, hne, hle⟩ := h.posted m hm l hl
      exact ⟨hcluster, hne, hle.trans (grown _)⟩
    · obtain ⟨hs, hne, ht, hle⟩ := hw.posted m hm l hl
      refine ⟨⟨_, hs ▸ hp, ht⟩, hne, ?_⟩
      dsimp only
      rw [hs, hpeers, Function.update_self]
      exact hle

end TrustedDcr.System
