import TrustedDcr.Enclave.Checkpoints
import TrustedDcr.System.Acknowledgements

/-!
# How logs grow

A call appends one entry at most, which the peer and the call determine. Where
elections are fair, a log is only ever extended by its leader or replaced by a longer
or shorter part of a leader's log, so what the appended entries keep holds of all
logs.
-/

namespace TrustedDcr.Enclave
open TrustedDcr.Msg TrustedDcr.System

namespace Peer

/-- The entry of a command. `src/enclave/enclave.cpp:554–567`. -/
def commandEntry (p : Peer) (req : CommandReq) (tag : CommandTag) : Entry :=
  ⟨p.log.length, p.term, req.event, req.source, tag⟩

/-- An entry of the peer's own. -/
def ownEntry (p : Peer) (tag : CommandTag) : Entry :=
  ⟨p.log.length, p.term, p.clusterEvent, p.id, tag⟩

/-- `recv_command_req` appends this command, which is no LOCK, as it is. -/
def logsCommand (p : Peer) (req : CommandReq) : Bool :=
  uidsEqual req.target p.id && p.role == .leader && (p.existInLog req.tag).isNone &&
    req.tag.type != .lock

/-- The entry that a call appends. -/
def appends (p : Peer) (o : Oracle) : Call → Option Entry
  | .recv (.commandReq req) =>
    if p.admitsLock req then
      some (p.commandEntry req (if p.executesAtOnce req then ⟨req.tag.uid, .exec⟩ else req.tag))
    else if p.logsCommand req then some (p.commandEntry req req.tag)
    else none
  | .recv (.commandRsp rsp) =>
    if p.completesLocks rsp then some (p.ownEntry ⟨rsp.tag.uid, .exec⟩)
    else if p.Handles true rsp ∧ rsp.tag.type = .abort ∧ p.startsAbort rsp.source = true then
      some (p.ownEntry ⟨o.junkEntry.tag.uid, .abort⟩)
    else none
  | .setTime ticks =>
    if p.checkpoints ticks then some (p.ownEntry ⟨o.uid, .checkpoint⟩) else none
  | _ => none

end Peer

end TrustedDcr.Enclave

namespace TrustedDcr.System
open TrustedDcr.Msg TrustedDcr.Dcr TrustedDcr.Enclave TrustedDcr.Theory

section
variable {cfg : Config} {C : Hist → World → Action → Prop} {x : Uid} {h : Hist} {s t : World}
  {a : Action}

/-- A log on its way, or one continued with the entries of a request, is part of a leader's. -/
theorem Anchored.exists_led {log : List Entry} (anchored : Anchored cfg x h s log)
    (root : log[0]? = some getEmptyEntry) : log = [getEmptyEntry] ∨
      ∃ s' ∈ states h s, ∃ p ∈ cfg.cluster x, log <+: (s'.peers p).log := by
  have pos := (List.getElem?_eq_some_iff.mp root).1
  by_cases single : log.length = 1
  · obtain ⟨e, rfl⟩ := List.length_eq_one_iff.mp single
    exact Or.inl (congrArg (fun e ↦ [e]) (Option.some.inj root))
  · have last := List.getElem?_eq_getElem (l := log) (show log.length - 1 < log.length by omega)
    obtain ⟨_, ⟨s', hs', p, hp, -, -, rfl⟩, hpre⟩ := anchored _ _ last (by omega)
    rw [List.take_of_length_le (by omega)] at hpre
    exact Or.inr ⟨s', hs', p, hp, hpre⟩

/-- A follower that takes over entries has part of a leader's log afterwards. -/
theorem Run.accepted (run : Run cfg (ElectsFairly cfg) h s) (hp : a.peer ∈ cfg.cluster x)
    (received : ∀ m, a.call.received = some m → m ∈ s.net) {req : AppendReq}
    (request : a.call.received = some (.appendReq req)) (target : req.target = a.peer)
    {prev : Entry} (found : (s.peers a.peer).log[req.prevIndex]? = some prev)
    (term : prev.term = req.prevTerm) :
    ∃ log, log = (s.peers a.peer).log.take (req.prevIndex + 1) ++ req.entries ∧
      (log = [getEmptyEntry] ∨ ∃ s' ∈ states h s, ∃ p ∈ cfg.cluster x, log <+: (s'.peers p).log) := by
  have below : Run cfg (fun _ s _ ↦ TermsBelow cfg s) h s := run.mono fun _ _ _ fair ↦ fair.1
  have unique := run.leadersUnique x
  have matched := below.matched unique
  have sent := received _ request
  obtain ⟨⟨y, source, addressed⟩, -⟩ := run.wired.1.posted _ sent _ rfl
  rw [target] at addressed
  obtain rfl := (Config.clusterOf_of_mem addressed).symm.trans (Config.clusterOf_of_mem hp)
  obtain ⟨log, formed, anchored, ⟨prev', found', term'⟩, entries⟩ := matched.copied req sent source
  have same := (matched.logs _ hp).matching below unique anchored (below.ordered.logs _).root
    formed.root found found' (term.trans term'.symm)
  refine ⟨log, ?_, anchored.exists_led formed.root⟩
  rw [same, entries, List.take_append_drop]

/-- A response that starts no abort leaves the log alone, unless it is about a LOCK. -/
theorem log_of_not_starts {o : Oracle} {s : EnclaveState} {rsp : CommandRsp}
    (type : rsp.tag.type = .abort)
    (other : ¬(s.self.Handles true rsp ∧ rsp.tag.type = .abort ∧
      s.self.startsAbort rsp.source = true)) :
    wp (recvCommandRsp o true rsp) (fun _ t ↦ t.self.log = s.self.log) s := by
  by_cases handles : s.self.Handles true rsp
  · have idle : s.self.startsAbort rsp.source = false := by
      rw [Bool.eq_false_iff]
      exact fun starts ↦ other ⟨handles, type, starts⟩
    have abort := @recvAbortRsp_of_not_starts o rsp
      { s with self := { s.self with missingResp := s.self.cleared rsp } } idle
    unfold wp
    rw [recvCommandRsp_of_handles handles, type]
    intro a t ht
    obtain ⟨⟨leaders, rfl⟩, -⟩ := abort a t ht
    rfl
  · by_cases redirects : s.self.Redirects true rsp
    · unfold wp
      rw [recvCommandRsp_of_redirects redirects]
      exact fun _ t ht ↦ congrArg Node.log (aside_recvRedirect rsp s _ t ht).node
    · unfold wp
      rw [recvCommandRsp_of_ignores handles redirects]
      rintro _ _ ⟨⟩
      rfl

/-- What is appended is what the peer and the call determine. -/
theorem World.step_appends (next : s.step cfg a = some t) {e : Entry} {ds : List Uid}
    (origin : Origin a.call.received a.oracle (s.peers a.peer) ds e)
    (grows : (t.peers a.peer).log = (s.peers a.peer).log ++ [e]) :
    (s.peers a.peer).appends a.oracle a.call = some e := by
  have changed : (t.peers a.peer).log ≠ (s.peers a.peer).log := by
    rw [grows]
    exact fun h ↦ by simpa using congrArg List.length h
  have still (call : wp (a.call.body a.oracle)
      (fun _ e ↦ e.self.log = (s.peers a.peer).log) (s.enclave a.peer)) : False := by
    obtain ⟨-, e, he, hpeers, -⟩ := World.step_of_wp next call
    rw [hpeers, Function.update_self] at changed
    exact changed he
  cases origin with
  | @request req received addressed leads fresh lock =>
    rw [Call.eq_recv received]
    unfold Peer.appends
    dsimp only
    by_cases type : req.tag.type = .lock
    · rw [if_pos (lock type).1, if_neg (by simp [(lock type).2])]
      rfl
    · rw [if_neg (by simp [Peer.admitsLock, type]),
        if_pos (by simp [Peer.logsCommand, addressed, leads, fresh, type])]
      rfl
  | immediate received admitted atOnce =>
    rw [Call.eq_recv received]
    unfold Peer.appends
    dsimp only
    rw [if_pos admitted, if_pos atOnce]
    rfl
  | executed received complete =>
    rw [Call.eq_recv received]
    unfold Peer.appends
    dsimp only
    rw [if_pos complete]
    rfl
  | @aborted rsp received type =>
    have hcall := Call.eq_recv received
    rw [hcall]
    unfold Peer.appends
    dsimp only
    rw [if_neg (by simp [Peer.completesLocks, Peer.countsLock, type])]
    split
    · rfl
    · next other =>
      refine (still ?_).elim
      rw [hcall]
      exact log_of_not_starts (s := s.enclave a.peer) type other
  | checkpoint received =>
    cases hcall : a.call with
    | recv => rw [hcall] at received; exact nomatch received
    | setTime ticks =>
      unfold Peer.appends
      dsimp only
      split
      · rfl
      · next idle =>
        refine (still ?_).elim
        rw [hcall]
        refine wp_mono (marks_setTime ticks (s.enclave a.peer)) ?_
        rintro _ e (⟨-, h⟩ | ⟨h, -⟩)
        · exact h
        · exact absurd h idle
    | execute event =>
      refine (still ?_).elim
      rw [hcall]
      exact wp_mono (aside_execute event _) fun _ _ h ↦ congrArg Node.log h.node
    | getHistory =>
      refine (still ?_).elim
      rw [hcall]
      exact wp_mono (aside_getHistory _) fun _ _ h ↦ congrArg Node.log h.node

/-- What holds of prefixes, and of a log when an entry is appended to it, holds of all logs that a
cluster has had. -/
theorem Run.grown (fair : ∀ h s a, C h s a → ElectsFairly cfg h s a) {Φ : List Entry → Prop}
    (mono : ∀ l l', l' <+: l → Φ l → Φ l') (root : Φ [getEmptyEntry])
    (append : ∀ {h s a t}, Run cfg C h s → C h s a → s.step cfg a = some t →
      a.peer ∈ cfg.cluster x → ∀ e, (s.peers a.peer).appends a.oracle a.call = some e →
      (∀ s' ∈ states h s, ∀ p ∈ cfg.cluster x, Φ (s'.peers p).log) →
      Φ ((s.peers a.peer).log ++ [e]))
    (run : Run cfg C h s) : ∀ s' ∈ states h s, ∀ p ∈ cfg.cluster x, Φ (s'.peers p).log := by
  induction run with
  | initial =>
    intro s' hs' p hp
    obtain rfl := List.mem_singleton.mp hs'
    rw [show ((World.initial cfg).peers p).log = [getEmptyEntry] from
      congrArg Node.log (fresh_configured cfg p).node]
    exact root
  | @step h s t a run meets next ih =>
    intro s' hs' p hp
    rcases List.mem_cons.mp hs' with rfl | hs'
    · obtain ⟨allowed, e, goes, hpeers, -⟩ := World.step_cases next
      by_cases hne : p = a.peer
      · subst hne
        have hself : s'.peers a.peer = e.self := by rw [hpeers, Function.update_self]
        have before := ih s List.mem_cons_self _ hp
        rcases log_of_moves goes.moves rfl with hlog | ⟨f, ds, origin, -, hlog⟩ |
          ⟨req, request, target, hlog, prev, found, term⟩
        · rw [hself, show e.self.log = (s.peers a.peer).log from hlog]
          exact before
        · have grows : (s'.peers a.peer).log = (s.peers a.peer).log ++ [f] := by
            rw [hself]
            exact hlog
          rw [grows]
          exact append run meets next hp f (World.step_appends next origin grows) ih
        · have wired := ((run.mono fair).wired.1.step (fair _ _ _ meets).1 next).placed a.peer
          have own : req.target = a.peer := by
            rw [target, ← wired.1, hself]
            rfl
          obtain ⟨log, rfl, hempty | ⟨s₁, h₁, q, hq, hpre⟩⟩ :=
            (run.mono fair).accepted hp allowed.received request own found term
          · rw [hself, show e.self.log = _ from hlog, hempty]
            exact root
          · rw [hself, show e.self.log = _ from hlog]
            exact mono _ _ hpre (ih s₁ h₁ q hq)
      · rw [hpeers, Function.update_of_ne hne]
        exact ih s List.mem_cons_self p hp
    · exact ih s' hs' p hp

end

end TrustedDcr.System
