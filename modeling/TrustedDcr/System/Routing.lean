import TrustedDcr.Dcr.Locks
import TrustedDcr.System.Network

/-!
# Where a call sends its requests

A request for an event goes to the leader that `leader_map` names, and a redirect, a
new term or a retry chooses another one. What a peer keeps about the other clusters
is right as long as the answers of their peers are, and those name members of the
clusters they come from. Every call keeps to this, and sends what it sends in blocks:
one for each loop over the events to lock, over those to inform and over the
outstanding requests, and single messages apart from these.
-/

namespace TrustedDcr.Enclave
open TrustedDcr.Msg

/-- The request is missing its response. -/
def Peer.Awaits (p : Peer) (req : CommandReq) : Prop := ∃ key : Uid, p.missingResp[key]? = some req

end TrustedDcr.Enclave

namespace TrustedDcr.System
open TrustedDcr.Msg TrustedDcr.Dcr TrustedDcr.Dcr.DcrWorkflow TrustedDcr.Enclave TrustedDcr.Theory

/-- Every event of the workflow has a peer. -/
def Config.Covered (cfg : Config) : Prop := ∀ e ∈ cfg.workflow.events, cfg.members e ≠ []

instance (cfg : Config) : Decidable cfg.Covered :=
  inferInstanceAs (Decidable (∀ e ∈ cfg.workflow.events, _))

/-- What peer `p` keeps about the clusters is right. -/
structure Routed (cfg : Config) (p : Uid) (q : Peer) : Prop where
  id : q.id = p
  own : p ∈ cfg.cluster (cfg.clusterOf p)
  clusterEvent : q.clusterEvent = cfg.clusterOf p
  clusterMembers : ∀ x ∈ q.clusterMembers, x ∈ cfg.cluster (cfg.clusterOf p)
  workflow : SameGraph (makeWorkflow cfg.workflow) q.workflow
  peerToEventMap : q.peerToEventMap = cfg.peerToEventMap
  leaderMap : ∀ e, ∀ x ∈ cfg.cluster e, ∃ l ∈ cfg.cluster e, q.leaderMap[e]? = some l
  leader : q.leader ∈ cfg.cluster (cfg.clusterOf p)
  awaits : ∀ req, q.Awaits req → req.target ∈ cfg.cluster (cfg.clusterOf req.target)

/-- The message names members of one cluster: a letter as its source and its target, an answer as
its source and the leader it points to. -/
structure Honest (cfg : Config) (m : Message) : Prop where
  letter : ∀ l, m.letter = some l → ∃ x, l.source ∈ cfg.cluster x ∧ l.target ∈ cfg.cluster x
  commandRsp : ∀ rsp, m = .commandRsp rsp → ∃ x, rsp.source ∈ cfg.cluster x ∧
    (rsp.success = false → rsp.leader ≠ emptyUid → rsp.leader ∈ cfg.cluster x)
  logRsp : ∀ rsp, m = .logRsp rsp → ∃ x, rsp.source ∈ cfg.cluster x ∧
    (rsp.success = false → rsp.leader ∈ cfg.cluster x)

/-- A request to lock an event or to execute it. -/
def isLockOrExec : Message → Bool
  | .commandReq req => req.tag.type == .lock || req.tag.type == .exec
  | _ => false

/-- What one of the sending functions hands over in the call `a` at `w`. -/
inductive Block (cfg : Config) (w : World) (a : Action) : List Message → Prop
  | other {m : Message} (plain : isLockOrExec m = false) : Block cfg w a [m]
  /-- `send_lock_requests`: each request is addressed to a peer of the event it is for. -/
  | lockRequests (uid : Uid) {ms : List Message} (reach : List.Forall₂ (fun e m ↦
      ∃ l ∈ cfg.cluster e, m = .commandReq ⟨l, a.peer, ⟨uid, .lock⟩, cfg.clusterOf a.peer⟩)
      ((makeWorkflow cfg.workflow).getLockSet (cfg.clusterOf a.peer)).toList ms) : Block cfg w a ms
  /-- `send_execution`: likewise. -/
  | execution (uid : Uid) {ms : List Message} (reach : List.Forall₂ (fun e m ↦
      ∃ l ∈ cfg.cluster e, m = .commandReq ⟨l, a.peer, ⟨uid, .exec⟩, cfg.clusterOf a.peer⟩)
      ((makeWorkflow cfg.workflow).getInformSet (cfg.clusterOf a.peer)).toList ms) : Block cfg w a ms
  /-- `retry_requests`: each outstanding request goes to the cluster it was addressed to. -/
  | retries {ms : List Message} (reach : List.Forall₂ (fun r m ↦
      ∃ l ∈ cfg.cluster (cfg.clusterOf r.2.target), m = .commandReq { r.2 with target := l })
      (w.peers a.peer).missingResp.toList ms) : Block cfg w a ms
  /-- `execute`: the request of the client. -/
  | start {event l : Uid} (called : a.call = .execute event) :
      Block cfg w a [.commandReq ⟨l, a.peer, ⟨a.oracle.uid, .lock⟩, event⟩]
  /-- `recv_command_rsp`: the request with the contents of `resolve_entry`. -/
  | resolve {rsp : CommandRsp} (called : a.call = .recv (.commandRsp rsp)) :
      Block cfg w a [.commandReq
        ⟨rsp.source, a.peer, a.oracle.junkResolve.tag, a.oracle.junkResolve.event⟩]

/-- The messages are blocks, one after the other. -/
def Emits (cfg : Config) (w : World) (a : Action) (ms : List Message) : Prop :=
  ∃ blocks : List (List Message), ms = blocks.flatten ∧ ∀ b ∈ blocks, Block cfg w a b

/-- The message is right about the clusters, or the response that no case has assigned. -/
def Genuine (cfg : Config) (a : Action) (m : Message) : Prop :=
  Honest cfg m ∨ ∃ round, m = .commandRsp (a.oracle.junkRsp round)

/-- A part of the call that keeps the peer routed and sends these messages. -/
structure Sends (cfg : Config) (w : World) (a : Action) (s t : EnclaveState) (ms : List Message) :
    Prop where
  routed : Routed cfg a.peer t.self
  sent : t.sent = s.sent ++ ms
  emits : Emits cfg w a ms
  genuine : ∀ m ∈ ms, Genuine cfg a m
  filed : ∀ req, t.self.Awaits req → s.self.Awaits req ∨ .commandReq req ∈ ms

/-- Run by a routed peer, the program keeps it so, and its result is as stated. -/
def Steers (cfg : Config) (w : World) (a : Action) {α : Type} (P : α → Prop) (x : Ecall α) : Prop :=
  ∀ s, Routed cfg a.peer s.self → wp x (fun v t ↦ (∃ ms, Sends cfg w a s t ms) ∧ P v) s

/-- The same for a program without a result. -/
abbrev Steady (cfg : Config) (w : World) (a : Action) (x : Ecall Unit) : Prop :=
  Steers cfg w a (fun _ ↦ True) x

section
variable {cfg : Config} {w : World} {a : Action}

private theorem Emits.nil : Emits cfg w a [] := ⟨[], rfl, fun _ hb ↦ nomatch hb⟩

private theorem Emits.append {ms ns : List Message} (hm : Emits cfg w a ms)
    (hn : Emits cfg w a ns) : Emits cfg w a (ms ++ ns) := by
  obtain ⟨bs, rfl, hbs⟩ := hm
  obtain ⟨cs, rfl, hcs⟩ := hn
  refine ⟨bs ++ cs, by simp, fun b hb ↦ ?_⟩
  exact (List.mem_append.mp hb).elim (hbs b) (hcs b)

/-- One sending function alone. -/
theorem Block.emits {ms : List Message} (h : Block cfg w a ms) : Emits cfg w a ms :=
  ⟨[ms], by simp, fun b hb ↦ List.mem_singleton.mp hb ▸ h⟩

/-- Messages other than LOCK and EXEC requests, in any number. -/
theorem Emits.of_plain {ms : List Message} (h : ∀ m ∈ ms, isLockOrExec m = false) :
    Emits cfg w a ms := by
  induction ms with
  | nil => exact Emits.nil
  | cons m ms ih =>
    obtain ⟨hm, hms⟩ := List.forall_mem_cons.mp h
    exact (Block.other hm).emits.append (ih hms)

/-- Nothing is sent, and no request is filed. -/
theorem Sends.none {s t : EnclaveState} (routed : Routed cfg a.peer t.self)
    (sent : t.sent = s.sent) (filed : ∀ req, t.self.Awaits req → s.self.Awaits req) :
    Sends cfg w a s t [] where
  routed := routed
  sent := by rw [sent, List.append_nil]
  emits := Emits.nil
  genuine := fun _ hm ↦ nomatch hm
  filed req hr := Or.inl (filed req hr)

/-- Nothing is sent. -/
protected theorem Sends.refl {s : EnclaveState} (routed : Routed cfg a.peer s.self) :
    Sends cfg w a s s [] := Sends.none routed rfl fun _ hr ↦ hr

/-- What two parts of a call send, they send in a row. -/
protected theorem Sends.trans {s t u : EnclaveState} {ms ns : List Message}
    (st : Sends cfg w a s t ms) (tu : Sends cfg w a t u ns) : Sends cfg w a s u (ms ++ ns) where
  routed := tu.routed
  sent := by rw [tu.sent, st.sent, List.append_assoc]
  emits := st.emits.append tu.emits
  genuine m hm := (List.mem_append.mp hm).elim (st.genuine m) (tu.genuine m)
  filed req hr := by
    obtain hr | hm := tu.filed req hr
    · exact (st.filed req hr).imp_right (List.mem_append_left _)
    · exact Or.inr (List.mem_append_right _ hm)

/-! ### The rules -/

/-- A program that runs after such a part of the call. -/
theorem Sends.steers {α : Type} {P : α → Prop} {s t : EnclaveState} {ms : List Message}
    {x : Ecall α} (hst : Sends cfg w a s t ms) (hx : Steers cfg w a P x) :
    wp x (fun v u ↦ (∃ ms, Sends cfg w a s u ms) ∧ P v) t := by
  refine wp_mono (hx t hst.routed) ?_
  rintro v u ⟨⟨ns, htu⟩, hv⟩
  exact ⟨⟨_, hst.trans htu⟩, hv⟩

namespace Steers

variable {α β : Type} {P : α → Prop} {Q : β → Prop}

/-- A result given back at once, as stated. -/
protected theorem pure {v : α} (h : P v) : Steers cfg w a P (pure v : Ecall α) := fun _ hs ↦
  wp_pure.mpr ⟨⟨_, Sends.refl hs⟩, h⟩

/-- What comes second may rely on what is stated of the first. -/
protected theorem bind {x : Ecall α} {f : α → Ecall β} (hx : Steers cfg w a P x)
    (hf : ∀ v, P v → Steers cfg w a Q (f v)) : Steers cfg w a Q (x >>= f) := by
  intro s hs
  rw [wp_bind]
  refine wp_mono (hx s hs) ?_
  rintro v t ⟨⟨ms, hst⟩, hv⟩
  exact hst.steers (hf v hv)

/-- A result from outside, as it was computed. -/
protected theorem lift {x : Except Fault α} :
    Steers cfg w a (fun v ↦ x = .ok v) (liftM x : Ecall α) := fun _ hs ↦
  wp_lift.mpr fun _ hv ↦ ⟨⟨_, Sends.refl hs⟩, hv⟩

/-- A choice may rely on its condition. -/
protected theorem ite {c : Prop} [Decidable c] {x y : Ecall α} (hx : c → Steers cfg w a P x)
    (hy : ¬c → Steers cfg w a P y) : Steers cfg w a P (if c then x else y) := by
  by_cases hc : c
  · rw [if_pos hc]
    exact hx hc
  · rw [if_neg hc]
    exact hy hc

/-- A conditional step before the rest of a program. -/
protected theorem when {c : Prop} [Decidable c] {x : Ecall Unit} {rest : Unit → Ecall α}
    (hx : c → Steady cfg w a x) (hrest : Steers cfg w a P (rest ⟨⟩)) :
    Steers cfg w a P (if c then x >>= rest else rest ⟨⟩) :=
  Steers.ite (fun hc ↦ (hx hc).bind fun _ _ ↦ hrest) fun _ ↦ hrest

/-- A loop that collects results. -/
protected theorem mapM {f : α → Ecall β} {l : List α} (hf : ∀ v ∈ l, Steers cfg w a Q (f v)) :
    Steers cfg w a (fun bs ↦ ∀ b ∈ bs, Q b) (l.mapM f) := by
  induction l with
  | nil =>
    rw [List.mapM_nil]
    exact Steers.pure fun _ hb ↦ nomatch hb
  | cons v l ih =>
    rw [List.mapM_cons]
    refine (hf v List.mem_cons_self).bind fun b hb ↦ ?_
    refine (ih fun c hc ↦ hf c (List.mem_cons_of_mem _ hc)).bind fun bs hbs ↦ ?_
    exact Steers.pure (List.forall_mem_cons.mpr ⟨hb, hbs⟩)

end Steers

/-! ### The peer and its messages -/

/-- Where all events are covered, each has a peer. -/
theorem Config.Covered.exists_mem (covered : cfg.Covered) {e : Uid} (he : e ∈ cfg.workflow.events) :
    ∃ x, x ∈ cfg.cluster e := by
  obtain ⟨x, hx⟩ := List.exists_mem_of_ne_nil _ (covered e he)
  exact ⟨x, List.mem_toFinset.mpr hx⟩

namespace Routed

variable {p l e : Uid} {q : Peer}

/-- Another leader of the same cluster. -/
theorem insertLeader (hq : Routed cfg p q) (hl : l ∈ cfg.cluster e) :
    Routed cfg p { q with leaderMap := q.leaderMap.insert e l } := by
  refine { hq with leaderMap := fun e' x hx ↦ ?_ }
  dsimp only
  rw [Std.ExtTreeMap.getElem?_insert]
  by_cases he : e = e'
  · subst he
    exact ⟨l, hl, if_pos Std.ReflCmp.compare_self⟩
  · rw [if_neg (fun h ↦ he (Std.LawfulEqCmp.compare_eq_iff_eq.mp h))]
    exact hq.leaderMap e' x hx

/-- A new term with a leader of the own cluster. -/
theorem updateTerm (hq : Routed cfg p q) (hl : l ∈ cfg.cluster (cfg.clusterOf p)) (term : Nat) :
    Routed cfg p (q.updateTerm term l) := by
  have h := hq.insertLeader (hq.clusterEvent ▸ hl : l ∈ cfg.cluster q.clusterEvent)
  exact { h with leader := hl }

/-- Any change of the outstanding requests that adds well-addressed ones at most. -/
theorem withMissing (hq : Routed cfg p q) {missing : UidMap CommandReq}
    (h : ∀ req, { q with missingResp := missing }.Awaits req →
      q.Awaits req ∨ req.target ∈ cfg.cluster (cfg.clusterOf req.target)) :
    Routed cfg p { q with missingResp := missing } :=
  { hq with awaits := fun req hr ↦ (h req hr).elim (hq.awaits req) fun h ↦ h }

private theorem withTimers (hq : Routed cfg p q) (tMin t : UInt64) :
    Routed cfg p { q with tMin := tMin, t := t } := { hq with }

/-- A letter to another member. -/
theorem honest_letter (hq : Routed cfg p q) {m : Message} {l : Letter} (letter : m.letter = some l)
    (source : l.source = q.id) (target : l.target ∈ cfg.cluster (cfg.clusterOf p)) :
    Honest cfg m := by
  refine ⟨fun l' hl' ↦ ?_, ?_, ?_⟩
  · obtain rfl := Option.some.inj (letter.symm.trans hl')
    exact ⟨_, by rw [source, hq.id]; exact hq.own, target⟩
  · rintro rsp rfl
    exact nomatch letter
  · rintro rsp rfl
    exact nomatch letter

/-- The answer to a command. -/
theorem honest_answer (hq : Routed cfg p q) (rsp : CommandRsp) (source : rsp.source = q.id)
    (leader : rsp.success = true ∨ rsp.leader = emptyUid ∨
      rsp.leader ∈ cfg.cluster (cfg.clusterOf p)) : Honest cfg (.commandRsp rsp) := by
  refine ⟨(fun _ h ↦ nomatch h), ?_, (fun _ h ↦ nomatch h)⟩
  rintro _ ⟨⟩
  refine ⟨_, by rw [source, hq.id]; exact hq.own, fun refused known ↦ ?_⟩
  obtain h | h | h := leader
  · rw [refused] at h
    exact nomatch h
  · exact absurd h known
  · exact h

/-- The answer to a request for the history. -/
theorem honest_history (hq : Routed cfg p q) (rsp : LogRsp) (source : rsp.source = q.id)
    (leader : rsp.success = true ∨ rsp.leader ∈ cfg.cluster (cfg.clusterOf p)) :
    Honest cfg (.logRsp rsp) := by
  refine ⟨(fun _ h ↦ nomatch h), (fun _ h ↦ nomatch h), ?_⟩
  rintro _ ⟨⟩
  refine ⟨_, by rw [source, hq.id]; exact hq.own, fun refused ↦ ?_⟩
  obtain h | h := leader
  · rw [refused] at h
    exact nomatch h
  · exact h

end Routed

/-- A command request says nothing about the clusters. -/
theorem honest_commandReq (req : CommandReq) : Honest cfg (.commandReq req) :=
  ⟨(fun _ h ↦ nomatch h), (fun _ h ↦ nomatch h), (fun _ h ↦ nomatch h)⟩

/-- A history request says nothing about the clusters. -/
theorem honest_logReq (req : LogReq) : Honest cfg (.logReq req) :=
  ⟨(fun _ h ↦ nomatch h), (fun _ h ↦ nomatch h), (fun _ h ↦ nomatch h)⟩

private theorem plain_of_letter {m : Message} {l : Letter} (h : m.letter = some l) :
    isLockOrExec m = false := by
  cases m with
  | commandReq req => exact nomatch h
  | _ => rfl

/-! ### The helpers -/

/-- The peer read is routed. -/
theorem steers_getSelf : Steers cfg w a (fun q ↦ Routed cfg a.peer q) getSelf := fun _ hs ↦
  wp_getSelf.mpr ⟨⟨_, Sends.refl hs⟩, hs⟩

/-- An assignment that keeps the peer routed and files no request. -/
theorem steers_modifySelf {f : Peer → Peer}
    (routed : ∀ q, Routed cfg a.peer q → Routed cfg a.peer (f q))
    (filed : ∀ q, (f q).missingResp = q.missingResp) : Steady cfg w a (modifySelf f) := by
  intro s hs
  refine wp_modifySelf.mpr ⟨⟨_, Sends.none (routed _ hs) rfl fun req hr ↦ ?_⟩, trivial⟩
  unfold Peer.Awaits at hr ⊢
  dsimp only at hr
  rwa [filed] at hr

/-- Such an assignment before the rest of a program. -/
theorem steers_bind_modifySelf {α : Type} {P : α → Prop} {f : Peer → Peer} {g : Unit → Ecall α}
    (routed : ∀ q, Routed cfg a.peer q → Routed cfg a.peer (f q))
    (filed : ∀ q, (f q).missingResp = q.missingResp) (rest : Steers cfg w a P (g ⟨⟩)) :
    Steers cfg w a P (modifySelf f >>= g) :=
  (steers_modifySelf routed filed).bind fun _ _ ↦ rest

/-- Broadcasting what is emitted and genuine. -/
theorem steers_macAndBroadcastMsgs {ms : List Message} (emits : Emits cfg w a ms)
    (genuine : ∀ m ∈ ms, Genuine cfg a m) : Steady cfg w a (macAndBroadcastMsgs ms) := fun _ hs ↦
  wp_macAndBroadcastMsgs.mpr ⟨⟨ms, hs, rfl, emits, genuine, fun _ hr ↦ Or.inl hr⟩, trivial⟩

/-- Sending one block that is right about the clusters. -/
theorem steers_macAndSendMsg {m : Message} (block : Block cfg w a [m]) (honest : Honest cfg m) :
    Steady cfg w a (macAndSendMsg m) := fun _ hs ↦
  wp_macAndSendMsg.mpr ⟨⟨[m], hs, rfl, block.emits, fun _ hm ↦
    List.mem_singleton.mp hm ▸ Or.inl honest, fun _ hr ↦ Or.inl hr⟩, trivial⟩

/-- One letter to a member of the own cluster. -/
theorem steers_sendLetter {q : Peer} (hq : Routed cfg a.peer q) {m : Message} {l : Letter}
    (letter : m.letter = some l) (source : l.source = q.id)
    (target : l.target ∈ cfg.cluster (cfg.clusterOf a.peer)) : Steady cfg w a (macAndSendMsg m) :=
  steers_macAndSendMsg (.other (plain_of_letter letter)) (hq.honest_letter letter source target)

/-- Letters to all other members. -/
theorem steers_broadcast {q : Peer} (hq : Routed cfg a.peer q) {f : Uid → Message}
    (letter : ∀ x, ∃ term, (f x).letter = some ⟨q.id, x, term⟩) :
    Steady cfg w a (macAndBroadcastMsgs ((otherMembers q).map f)) := by
  refine steers_macAndBroadcastMsgs (Emits.of_plain fun m hm ↦ ?_) fun m hm ↦ ?_
  · obtain ⟨x, -, rfl⟩ := List.mem_map.mp hm
    exact plain_of_letter (letter x).choose_spec
  · obtain ⟨x, hx, rfl⟩ := List.mem_map.mp hm
    obtain ⟨term, hl⟩ := letter x
    exact Or.inl (hq.honest_letter hl rfl (hq.clusterMembers x (mem_otherMembers.mp hx).1))

/-- The identifier drawn is the oracle's. -/
theorem steers_generateRandomUid :
    Steers cfg w a (fun uid ↦ uid = a.oracle.uid) (generateRandomUid a.oracle) := by
  intro s hs
  unfold generateRandomUid
  rw [wp_bind]
  exact wp_modify.mpr (wp_pure.mpr ⟨⟨_, Sends.none hs rfl fun _ hr ↦ hr⟩, rfl⟩)

/-- A leader that is looked up belongs to the event, if it has a peer at all. -/
theorem steers_leaderMapAt (e : Uid) :
    Steers cfg w a (fun l ↦ ∀ x ∈ cfg.cluster e, l ∈ cfg.cluster e) (leaderMapAt e) := by
  intro s hs
  unfold leaderMapAt
  rw [wp_bind, wp_getSelf]
  cases hl : s.self.leaderMap[e]? with
  | some l =>
    refine wp_pure.mpr ⟨⟨_, Sends.refl hs⟩, fun x hx ↦ ?_⟩
    obtain ⟨l', hl', he⟩ := hs.leaderMap e x hx
    obtain rfl := Option.some.inj (hl.symm.trans he)
    exact hl'
  | none =>
    have empty (x : Uid) : x ∉ cfg.cluster e := by
      intro hx
      obtain ⟨l', -, he⟩ := hs.leaderMap e x hx
      exact nomatch hl.symm.trans he
    refine wp_bind_modifySelf fun t ht ↦ wp_pure.mpr ⟨⟨_, Sends.none ?_ ?_ ?_⟩, ?_⟩
    · rw [ht]
      refine { hs with leaderMap := fun e' x hx ↦ ?_ }
      dsimp only
      rw [Std.ExtTreeMap.getElem?_insert, if_neg]
      · exact hs.leaderMap e' x hx
      · rintro he
        exact empty x (Std.LawfulEqCmp.compare_eq_iff_eq.mp he ▸ hx)
    · rw [ht]
    · rw [ht]
      exact fun _ hr ↦ hr
    · exact fun x hx ↦ absurd hx (empty x)

/-- The event of a peer. -/
theorem steers_peerToEventMapAt {x e : Uid} (hx : x ∈ cfg.cluster e) :
    Steers cfg w a (fun event ↦ event = e) (peerToEventMapAt x) := by
  refine steers_getSelf.bind fun q hq ↦ ?_
  rw [hq.peerToEventMap, Config.mem_cluster.mp hx]
  exact Steers.pure rfl

/-- The source of a verified letter is in the own cluster. -/
theorem steers_verifyMacAndOwnTerm (valid : Bool) {m : Message} (honest : Honest cfg m) {l : Letter}
    (letter : m.letter = some l) : Steers cfg w a
      (fun verified ↦ verified = true → l.source ∈ cfg.cluster (cfg.clusterOf a.peer))
      (verifyMacAndOwnTerm valid l.target l.source l.term) := by
  unfold verifyMacAndOwnTerm
  refine Steers.ite (fun _ ↦ Steers.pure fun h ↦ nomatch h) fun _ ↦ ?_
  refine steers_getSelf.bind fun q hq ↦ Steers.ite (fun _ ↦ Steers.pure fun h ↦ nomatch h) ?_
  intro addressed
  have target : l.target = a.peer := by
    rw [← hq.id]
    simpa using addressed
  have source : l.source ∈ cfg.cluster (cfg.clusterOf a.peer) := by
    obtain ⟨x, hsource, htarget⟩ := honest.letter l letter
    rw [target] at htarget
    rwa [Config.clusterOf_of_mem htarget]
  refine Steers.when (fun _ ↦ ?_) (Steers.pure fun _ ↦ source)
  exact steers_modifySelf (fun q hq ↦ { hq.updateTerm source l.term with }) fun _ ↦ rfl

/-- Refusing an outdated term with a letter to a member of the own cluster. -/
theorem steers_verifyMsgTerm {q : Peer} (hq : Routed cfg a.peer q) (term : Nat) {m : Message}
    {l : Letter} (letter : m.letter = some l) (source : l.source = q.id)
    (target : l.target ∈ cfg.cluster (cfg.clusterOf a.peer)) :
    Steers cfg w a (fun _ ↦ True) (verifyMsgTerm term m) := by
  refine steers_getSelf.bind fun _ _ ↦ Steers.ite (fun _ ↦ ?_) fun _ ↦ Steers.pure trivial
  exact (steers_sendLetter hq letter source target).bind fun _ _ ↦ Steers.pure trivial

/-- The timers have nothing to do with routing. -/
theorem steers_updateTimeout : Steady cfg w a (updateTimeout a.oracle) := by
  unfold updateTimeout
  refine steers_modifySelf (fun q hq ↦ ?_) fun q ↦ ?_
  · split
    · exact hq.withTimers q.tMin _
    · exact hq.withTimers _ _
  · split <;> rfl

/-- A new leader enters itself for its own event. -/
theorem steers_becomeLeader : Steady cfg w a (becomeLeader a.oracle) := by
  have lead : Steady cfg w a (do
      modifySelf fun p ↦
        { p with role := .leader, leaderMap := p.leaderMap.insert p.clusterEvent p.id }
      updateTimeout a.oracle) := by
    refine steers_bind_modifySelf (fun q hq ↦ ?_) (fun _ ↦ rfl) steers_updateTimeout
    have own : q.id ∈ cfg.cluster q.clusterEvent := by
      rw [hq.id, hq.clusterEvent]
      exact hq.own
    exact { hq.insertLeader own with }
  refine steers_bind_modifySelf (fun _ hq ↦ { hq with }) (fun _ ↦ rfl) ?_
  refine steers_getSelf.bind fun q hq ↦ Steers.lift.bind fun found _ ↦ ?_
  cases found with
  | none => exact steers_bind_modifySelf (fun _ hq ↦ { hq with }) (fun _ ↦ rfl) lead
  | some i => exact steers_bind_modifySelf (fun _ hq ↦ { hq with }) (fun _ ↦ rfl) lead

/-- Votes are asked of the other members. -/
theorem steers_startElection : Steady cfg w a (startElection a.oracle) := by
  refine steers_updateTimeout.bind fun _ _ ↦ ?_
  refine steers_bind_modifySelf (fun q hq ↦ ?_) (fun _ ↦ rfl) ?_
  · rw [hq.id]
    exact hq.updateTerm hq.own _
  refine steers_bind_modifySelf (fun _ hq ↦ { hq with }) (fun _ ↦ rfl) ?_
  exact steers_getSelf.bind fun q hq ↦ Steers.lift.bind fun last _ ↦
    steers_broadcast hq fun _ ↦ ⟨_, rfl⟩

/-- Heartbeats go to the other members. -/
theorem steers_heartbeat : Steady cfg w a heartbeat :=
  steers_getSelf.bind fun _ hq ↦ Steers.ite (fun _ ↦ Steers.lift.bind fun _ _ ↦
    steers_broadcast hq fun _ ↦ ⟨_, rfl⟩) fun _ ↦ Steers.pure trivial

/-- Polls go to the other members. -/
theorem steers_startPoll : Steady cfg w a startPoll :=
  steers_getSelf.bind fun _ hq ↦ Steers.ite (fun _ ↦ Steers.lift.bind fun _ _ ↦
    steers_broadcast hq fun _ ↦ ⟨_, rfl⟩) fun _ ↦ Steers.pure trivial

private theorem steers_broadcastLast : Steady cfg w a broadcastLast :=
  steers_getSelf.bind fun _ hq ↦ Steers.ite (fun _ ↦ Steers.lift.bind fun _ _ ↦ Steers.lift.bind
    fun _ _ ↦ steers_broadcast hq fun _ ↦ ⟨_, rfl⟩) fun _ ↦ Steers.pure trivial

/-! ### The loops over events and requests -/

/-- Requests have been drafted and filed, and are still to be sent. -/
structure Drafts (cfg : Config) (a : Action) (ms : List Message) (s t : EnclaveState) : Prop where
  routed : Routed cfg a.peer t.self
  sent : t.sent = s.sent
  filed : ∀ req, t.self.Awaits req → s.self.Awaits req ∨ .commandReq req ∈ ms

private theorem Drafts.append {ms ns : List Message} {s t u : EnclaveState}
    (st : Drafts cfg a ms s t) (tu : Drafts cfg a ns t u) : Drafts cfg a (ms ++ ns) s u where
  routed := tu.routed
  sent := tu.sent.trans st.sent
  filed req hr := by
    obtain hr | hm := tu.filed req hr
    · exact (st.filed req hr).imp_right (List.mem_append_left _)
    · exact Or.inr (List.mem_append_right _ hm)

/-- Then they are sent. -/
theorem Drafts.broadcast {ms : List Message} {s t : EnclaveState} (h : Drafts cfg a ms s t)
    (emits : Emits cfg w a ms) (requests : ∀ m ∈ ms, ∃ req, m = .commandReq req) :
    wp (macAndBroadcastMsgs ms) (fun _ u ↦ (∃ ms, Sends cfg w a s u ms) ∧ True) t := by
  refine wp_macAndBroadcastMsgs.mpr ⟨⟨ms, h.routed, by rw [h.sent], emits, ?_, h.filed⟩, trivial⟩
  intro m hm
  obtain ⟨req, rfl⟩ := requests m hm
  exact Or.inl (honest_commandReq req)

/-- A request filed under any key. -/
theorem Drafts.file {s : EnclaveState} (hs : Routed cfg a.peer s.self) (req : CommandReq)
    {e : Uid} (target : req.target ∈ cfg.cluster e) (key : Uid) : Drafts cfg a [.commandReq req] s
      { s with self := { s.self with missingResp := s.self.missingResp.insert key req } } := by
  have filed : ∀ r, { s.self with missingResp := s.self.missingResp.insert key req }.Awaits r →
      s.self.Awaits r ∨ r = req := by
    rintro r ⟨k, hk⟩
    dsimp only at hk
    rw [Std.ExtTreeMap.getElem?_insert] at hk
    split at hk
    · exact Or.inr (Option.some.inj hk).symm
    · exact Or.inl ⟨k, hk⟩
  refine ⟨hs.withMissing fun r hr ↦ (filed r hr).imp_right ?_, rfl, fun r hr ↦ ?_⟩
  · rintro rfl
    rwa [Config.clusterOf_of_mem target]
  · refine (filed r hr).imp_right ?_
    rintro rfl
    exact List.mem_singleton_self _

/-- The leader for an event is one of its peers. -/
theorem eventLeader_mem {s : EnclaveState} (hs : Routed cfg a.peer s.self) (tag : CommandTag)
    {e x : Uid} (hx : x ∈ cfg.cluster e) :
    wp (eventLeader a.oracle tag e) (fun l t ↦ t = s ∧ l ∈ cfg.cluster e) s := by
  unfold eventLeader
  rw [wp_bind, wp_getSelf]
  obtain ⟨l, hl, he⟩ := hs.leaderMap e x hx
  rw [he]
  exact wp_pure.mpr ⟨rfl, hl⟩

private theorem drafts_fileCommand {s : EnclaveState} (hs : Routed cfg a.peer s.self)
    (tag : CommandTag) {e x : Uid} (hx : x ∈ cfg.cluster e) :
    wp (fileCommand a.oracle tag e) (fun m t ↦ Drafts cfg a [m] s t ∧
      ∃ l ∈ cfg.cluster e, m = .commandReq ⟨l, a.peer, tag, cfg.clusterOf a.peer⟩) s := by
  unfold fileCommand
  rw [wp_bind]
  refine wp_mono (eventLeader_mem hs tag hx) ?_
  rintro l _ ⟨rfl, hl⟩
  rw [wp_bind, wp_getSelf]
  refine wp_bind_modifySelf fun t ht ↦ wp_pure.mpr ?_
  rw [ht]
  refine ⟨Drafts.file hs _ hl _, l, hl, ?_⟩
  rw [hs.id, hs.clusterEvent]

/-- For each event one request to one of its peers is drafted. -/
theorem drafts_mapM_fileCommand (tag : CommandTag) {events : List Uid}
    (peers : ∀ e ∈ events, ∃ x, x ∈ cfg.cluster e) {s : EnclaveState}
    (hs : Routed cfg a.peer s.self) :
    wp (events.mapM (fileCommand a.oracle tag)) (fun ms t ↦ Drafts cfg a ms s t ∧
      List.Forall₂ (fun e m ↦
        ∃ l ∈ cfg.cluster e, m = .commandReq ⟨l, a.peer, tag, cfg.clusterOf a.peer⟩) events ms) s := by
  induction events generalizing s with
  | nil =>
    rw [List.mapM_nil]
    exact wp_pure.mpr ⟨⟨hs, rfl, fun _ hr ↦ Or.inl hr⟩, .nil⟩
  | cons e events ih =>
    obtain ⟨⟨x, hx⟩, rest⟩ := List.forall_mem_cons.mp peers
    rw [List.mapM_cons, wp_bind]
    refine wp_mono (drafts_fileCommand hs tag hx) fun m t ⟨hst, hm⟩ ↦ ?_
    rw [wp_bind]
    refine wp_mono (ih rest hst.routed) fun ms u ⟨htu, hms⟩ ↦ ?_
    exact wp_pure.mpr ⟨hst.append htu, .cons hm hms⟩

private theorem steers_sendCommands (tag : CommandTag) {events : List Uid}
    (peers : ∀ e ∈ events, ∃ x, x ∈ cfg.cluster e) (block : ∀ ms, List.Forall₂ (fun e m ↦
      ∃ l ∈ cfg.cluster e, m = .commandReq ⟨l, a.peer, tag, cfg.clusterOf a.peer⟩) events ms →
      Block cfg w a ms) : Steady cfg w a (sendCommands a.oracle tag events) := by
  intro s hs
  unfold sendCommands
  rw [wp_bind]
  refine wp_mono (drafts_mapM_fileCommand tag peers hs) ?_
  rintro ms t ⟨hst, hms⟩
  apply hst.broadcast (block ms hms).emits
  exact forall_mem_of_forall₂ hms fun e m ⟨l, _, hm⟩ ↦ ⟨_, hm⟩

/-- Another peer of the cluster is one of the cluster. -/
theorem Routed.findOtherPeerInCluster_mem {p l e : Uid} {q : Peer} (hq : Routed cfg p q)
    (hl : l ∈ cfg.cluster e) (buf : Nat) : q.findOtherPeerInCluster l buf ∈ cfg.cluster e := by
  unfold Peer.findOtherPeerInCluster
  rw [hq.peerToEventMap, show cfg.peerToEventMap.getD l emptyUid = e from
    Config.clusterOf_of_mem hl]
  dsimp only
  generalize hpeers : List.map Prod.fst _ = peers
  have members : ∀ x ∈ peers, x ∈ cfg.cluster e := by
    intro x hx
    rw [← hpeers] at hx
    obtain ⟨r, hr, rfl⟩ := List.mem_map.mp hx
    obtain ⟨hmem, htest⟩ := List.mem_filter.mp hr
    simp only [Bool.and_eq_true, uidsEqual_iff] at htest
    rw [Config.mem_cluster, ← htest.1.1]
    exact Std.ExtTreeMap.mem_toList_iff_getElem?_eq_some.mp hmem
  rw [List.getD_eq_getElem?_getD]
  cases hx : peers[buf % peers.length]? with
  | none => exact hl
  | some x => exact members x (List.mem_of_getElem? hx)

/-- An outstanding request is repeated to a peer of the cluster it was addressed to. -/
theorem retryRequest_spec {s : EnclaveState} (hs : Routed cfg a.peer s.self) (key : Uid)
    {req : CommandReq} {e : Uid} (target : req.target ∈ cfg.cluster e) :
    wp (retryRequest a.oracle key req) (fun _ t ↦ ∃ l ∈ cfg.cluster e,
      t = { s with sent := s.sent ++ [.commandReq { req with target := l }] }) s := by
  unfold retryRequest peerToEventMapAt
  rw [wp_bind, wp_bind, wp_getSelf, hs.peerToEventMap, Config.mem_cluster.mp target]
  rw [wp_pure, wp_bind, wp_getSelf, wp_macAndSendMsg]
  obtain ⟨l, hl, he⟩ := hs.leaderMap e _ target
  rw [Std.ExtTreeMap.getD_eq_getD_getElem?, he]
  refine ⟨_, ?_, rfl⟩
  split
  · exact hs.findOtherPeerInCluster_mem hl _
  · exact hl

/-- So are all of them, in turn. -/
theorem retryRequests_loop {rs : List (Uid × CommandReq)}
    (targets : ∀ r ∈ rs, r.2.target ∈ cfg.cluster (cfg.clusterOf r.2.target)) {s : EnclaveState}
    (hs : Routed cfg a.peer s.self) :
    wp (rs.forM fun r ↦ retryRequest a.oracle r.1 r.2) (fun _ t ↦ ∃ ms,
      t = { s with sent := s.sent ++ ms } ∧ List.Forall₂ (fun r m ↦
        ∃ l ∈ cfg.cluster (cfg.clusterOf r.2.target), m = .commandReq { r.2 with target := l })
        rs ms) s := by
  induction rs generalizing s with
  | nil => exact wp_pure.mpr ⟨[], by simp, .nil⟩
  | cons r rs ih =>
    obtain ⟨target, rest⟩ := List.forall_mem_cons.mp targets
    refine wp_bind.mpr (wp_mono (retryRequest_spec hs r.1 target) ?_)
    rintro _ _ ⟨l, hl, rfl⟩
    refine wp_mono (ih rest hs) ?_
    rintro _ _ ⟨ms, rfl, hms⟩
    exact ⟨.commandReq { r.2 with target := l } :: ms, by simp, .cons ⟨l, hl, rfl⟩ hms⟩

/-- The ABORT request for an event goes to one of its peers. -/
theorem drafts_abortCommand {s : EnclaveState} (hs : Routed cfg a.peer s.self) (uid : Uid)
    {e x : Uid} (hx : x ∈ cfg.cluster e) :
    wp (abortCommand uid e) (fun ms t ↦ Drafts cfg a ms s t ∧
      ∀ m ∈ ms, ∃ req, m = .commandReq req ∧ req.tag.type = .abort) s := by
  unfold abortCommand leaderMapAt
  obtain ⟨l, hl, he⟩ := hs.leaderMap e x hx
  rw [wp_bind, wp_bind, wp_getSelf, he]
  rw [wp_pure, wp_bind, wp_getSelf, wp_ite]
  constructor
  · intro _
    exact wp_pure.mpr ⟨⟨hs, rfl, fun _ hr ↦ Or.inl hr⟩, fun _ hm ↦ nomatch hm⟩
  · intro _
    refine wp_bind_modifySelf fun t ht ↦ wp_pure.mpr ?_
    rw [ht]
    refine ⟨Drafts.file hs _ hl l, fun m hm ↦ ?_⟩
    exact ⟨_, List.mem_singleton.mp hm, rfl⟩

private theorem drafts_mapM_abortCommand (uid : Uid) {events : List Uid}
    (peers : ∀ e ∈ events, ∃ x, x ∈ cfg.cluster e) {s : EnclaveState}
    (hs : Routed cfg a.peer s.self) :
    wp (events.mapM (abortCommand uid)) (fun mss t ↦ Drafts cfg a mss.flatten s t ∧
      ∀ m ∈ mss.flatten, ∃ req, m = .commandReq req ∧ req.tag.type = .abort) s := by
  induction events generalizing s with
  | nil =>
    rw [List.mapM_nil]
    exact wp_pure.mpr ⟨⟨hs, rfl, fun _ hr ↦ Or.inl hr⟩, fun _ hm ↦ nomatch hm⟩
  | cons e events ih =>
    obtain ⟨⟨x, hx⟩, rest⟩ := List.forall_mem_cons.mp peers
    rw [List.mapM_cons, wp_bind]
    refine wp_mono (drafts_abortCommand hs uid hx) fun ms t ⟨hst, hms⟩ ↦ ?_
    rw [wp_bind]
    refine wp_mono (ih rest hst.routed) fun mss u ⟨htu, hmss⟩ ↦ ?_
    refine wp_pure.mpr ⟨hst.append htu, fun m hm ↦ ?_⟩
    exact (List.mem_append.mp hm).elim (hms m) (hmss m)

section
variable (covered : cfg.Covered)
include covered

/-- Everyone to be informed has a peer. -/
theorem Config.Covered.peers_of_mem_getInformSet {e f : Uid}
    (h : f ∈ (makeWorkflow cfg.workflow).getInformSet e) : ∃ x, x ∈ cfg.cluster f :=
  covered.exists_mem (mem_events_of_mem_getInformSet h)

private theorem steers_sendLockRequests (uid : Uid) :
    Steady cfg w a (sendLockRequests a.oracle uid) := by
  refine steers_getSelf.bind fun q hq ↦ ?_
  rw [getLockSet_of_sameGraph hq.workflow, hq.clusterEvent]
  refine steers_sendCommands _ (fun e he ↦ ?_) fun ms hms ↦ Block.lockRequests uid hms
  exact covered.peers_of_mem_getInformSet
    (mem_getInformSet_of_mem_getLockSet (Std.ExtTreeSet.mem_toList.mp he))

/-- The events informed are told through their named leaders. -/
theorem steers_sendExecution (uid : Uid) : Steady cfg w a (sendExecution a.oracle uid) := by
  refine steers_getSelf.bind fun q hq ↦ ?_
  rw [getInformSet_of_sameGraph hq.workflow, hq.clusterEvent]
  refine steers_sendCommands _ (fun e he ↦ ?_) fun ms hms ↦ Block.execution uid hms
  exact covered.peers_of_mem_getInformSet (Std.ExtTreeSet.mem_toList.mp he)

private theorem steers_commitEntries (round : Nat) (entries : List Entry) :
    Steers cfg w a (fun rsps ↦ ∀ rsp ∈ rsps, Genuine cfg a (.commandRsp rsp))
      (commitEntries a.oracle round entries) := by
  induction entries generalizing round with
  | nil => exact Steers.pure fun _ h ↦ nomatch h
  | cons entry entries ih =>
    have collect {rsp : CommandRsp} (h : Genuine cfg a (.commandRsp rsp)) :
        Steers cfg w a (fun rsps ↦ ∀ rsp ∈ rsps, Genuine cfg a (.commandRsp rsp)) (do
          let rsps ← commitEntries a.oracle (round + 1) entries
          return rsp :: rsps) :=
      (ih _).bind fun rsps hrsps ↦ Steers.pure (List.forall_mem_cons.mpr ⟨h, hrsps⟩)
    unfold commitEntries
    refine Steers.ite (fun _ ↦ ?_) fun _ ↦ Steers.when (fun _ ↦ ?_) ?_
    · exact steers_bind_modifySelf (fun _ hq ↦ { hq with }) (fun _ ↦ rfl) (ih _)
    · refine steers_modifySelf (fun q hq ↦ ?_) fun _ ↦ rfl
      exact { hq with workflow := hq.workflow.trans (sameGraph_setEventExecuted _ _) }
    refine steers_getSelf.bind fun q hq ↦ Steers.ite (fun _ ↦ ?_) fun _ ↦
      Steers.ite (fun _ ↦ ?_) fun _ ↦ ?_
    · exact (steers_sendLockRequests covered _).bind fun _ _ ↦ ih _
    · refine Steers.lift.bind fun locked _ ↦ Steers.when (fun _ ↦ ?_) ?_
      · exact steers_modifySelf (fun _ hq ↦ { hq with }) fun _ ↦ rfl
      · exact (Steers.pure (P := fun rsp ↦ rsp = a.oracle.junkRsp round) rfl).bind fun rsp hrsp ↦
          collect (Or.inr ⟨round, congrArg _ hrsp⟩)
    · exact (Steers.pure (P := fun rsp ↦ rsp = commitRsp q.id entry) rfl).bind fun rsp hrsp ↦
        collect (Or.inl (hq.honest_answer rsp (by rw [hrsp]; rfl) (Or.inl (by rw [hrsp]; rfl))))

/-- A commit answers the sources of its entries and asks for the locks of its own. -/
theorem steers_updateCommitIndex (newIndex : Nat) :
    Steady cfg w a (updateCommitIndex a.oracle newIndex) := by
  refine steers_getSelf.bind fun q hq ↦ Steers.lift.bind fun committed _ ↦
    Steers.ite (fun _ ↦ ?_) fun _ ↦ ?_
  · refine steers_bind_modifySelf (fun q hq ↦ ?_) (fun _ ↦ rfl) ?_
    · exact { hq with workflow := hq.workflow.trans (sameGraph_executeEntries _ _) }
    · exact steers_modifySelf (fun _ hq ↦ { hq with }) fun _ ↦ rfl
  · refine (steers_commitEntries covered _ _).bind fun rsps hrsps ↦ ?_
    refine (steers_macAndBroadcastMsgs (Emits.of_plain fun m hm ↦ ?_) fun m hm ↦ ?_).bind
      fun _ _ ↦ steers_modifySelf (fun _ hq ↦ { hq with }) fun _ ↦ rfl
    · obtain ⟨rsp, -, rfl⟩ := List.mem_map.mp hm
      rfl
    · obtain ⟨rsp, hrsp, rfl⟩ := List.mem_map.mp hm
      exact hrsps rsp hrsp

/-- An entry goes to the other members, or is committed at once. -/
theorem steers_appendToLog (entry : Entry) : Steady cfg w a (appendToLog a.oracle entry) := by
  refine steers_bind_modifySelf (fun _ hq ↦ { hq with }) (fun _ ↦ rfl) ?_
  exact steers_getSelf.bind fun q hq ↦ Steers.ite (fun _ ↦ steers_updateCommitIndex covered _)
    fun _ ↦ steers_broadcastLast.bind fun _ _ ↦ steers_updateTimeout

/-- The outstanding requests are those the peer had before the call. -/
theorem steers_retryRequests {s : EnclaveState} (hs : Routed cfg a.peer s.self)
    (before : s.self.missingResp = (w.peers a.peer).missingResp) :
    wp (retryRequests a.oracle) (fun _ t ↦ (∃ ms, Sends cfg w a s t ms) ∧ True) s := by
  unfold retryRequests
  rw [wp_bind, wp_getSelf, wp_bind]
  refine wp_mono (retryRequests_loop (fun r hr ↦ ?_) hs) ?_
  · exact hs.awaits _ ⟨r.1, Std.ExtTreeMap.mem_toList_iff_getElem?_eq_some.mp hr⟩
  rintro _ t ⟨ms, rfl, hms⟩
  have sends : Sends cfg w a s { s with sent := s.sent ++ ms } ms := by
    refine ⟨hs, rfl, (Block.retries (before ▸ hms)).emits, ?_, fun _ hr ↦ Or.inl hr⟩
    refine forall_mem_of_forall₂ hms fun r m ⟨l, _, hm⟩ ↦ ?_
    rw [hm]
    exact Or.inl (honest_commandReq _)
  apply sends.steers
  refine steers_bind_modifySelf (fun _ hq ↦ { hq with }) (fun _ ↦ rfl) ?_
  refine steers_getSelf.bind fun q hq ↦ Steers.ite (fun _ ↦ Steers.lift.bind fun found _ ↦
    Steers.ite (fun _ ↦ Steers.ite (fun _ ↦ ?_) fun _ ↦ Steers.pure trivial)
      fun _ ↦ Steers.pure trivial) fun _ ↦ Steers.pure trivial
  refine steers_generateRandomUid.bind fun uid _ ↦ (steers_appendToLog covered _).bind fun _ _ ↦ ?_
  exact steers_modifySelf (fun _ hq ↦ { hq with }) fun _ ↦ rfl

/-- Locks are recalled through the named leaders. -/
theorem steers_abortExecution (uid : Uid) : Steady cfg w a (abortExecution a.oracle uid) := by
  refine steers_bind_modifySelf (fun _ hq ↦ { hq with }) (fun _ ↦ rfl) ?_
  refine steers_getSelf.bind fun _ _ ↦ (steers_appendToLog covered _).bind fun _ _ ↦
    steers_getSelf.bind fun q hq ↦ ?_
  rw [getLockSet_of_sameGraph hq.workflow, hq.clusterEvent]
  intro s hs
  rw [wp_bind]
  refine wp_mono (drafts_mapM_abortCommand uid (fun e he ↦ ?_) hs) ?_
  · exact covered.peers_of_mem_getInformSet
      (mem_getInformSet_of_mem_getLockSet (Std.ExtTreeSet.mem_toList.mp he))
  · rintro mss t ⟨hst, hmss⟩
    refine hst.broadcast (Emits.of_plain fun m hm ↦ ?_) fun m hm ↦ ?_
    · obtain ⟨req, rfl, type⟩ := hmss m hm
      simp [isLockOrExec, type]
    · obtain ⟨req, rfl, -⟩ := hmss m hm
      exact ⟨req, rfl⟩

end

end

end TrustedDcr.System
