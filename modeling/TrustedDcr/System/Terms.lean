import Mathlib.Data.List.Pairwise
import TrustedDcr.System.Simulation

/-!
# What stays while a term stays

A leader gives up the lead only for a later term. Until then its log grows by
entries of its term and nothing else.
-/

namespace TrustedDcr.System
open TrustedDcr.Msg TrustedDcr.Dcr TrustedDcr.Enclave TrustedDcr.Theory

/-- What a peer later on has kept: no earlier term, and in the same term the lead with its log. -/
structure Ensues (n n' : Node) : Prop where
  term_le : n.term ≤ n'.term
  leads : n.role = .leader → n'.term = n.term →
    n'.role = .leader ∧ ∃ new, n'.log = n.log ++ new ∧ ∀ e ∈ new, e.term = n.term

namespace Ensues

/-- A peer has kept what it has. -/
protected theorem refl (n : Node) : Ensues n n where
  term_le := Nat.le_refl _
  leads hl _ := ⟨hl, [], (List.append_nil _).symm, fun _ he ↦ nomatch he⟩

/-- What is kept first and then kept later is kept. -/
protected theorem trans {n n' n'' : Node} (h : Ensues n n') (h' : Ensues n' n'') :
    Ensues n n'' where
  term_le := h.term_le.trans h'.term_le
  leads hl ht := by
    have h₁ := h.term_le
    have h₂ := h'.term_le
    obtain ⟨hl', new, hlog, hnew⟩ := h.leads hl (by omega)
    obtain ⟨hl'', new', hlog', hnew'⟩ := h'.leads hl' (by omega)
    refine ⟨hl'', new ++ new', by rw [hlog', hlog, List.append_assoc], fun e he ↦ ?_⟩
    rcases List.mem_append.mp he with he | he
    · exact hnew e he
    · exact (hnew' e he).trans (by omega)

/-- A later term keeps nothing. -/
theorem of_lt {n n' : Node} (h : n.term < n'.term) : Ensues n n' where
  term_le := Nat.le_of_lt h
  leads _ ht := by omega

/-- Term, role and log stay. -/
theorem of_eq {n n' : Node} (term : n'.term = n.term) (role : n'.role = n.role)
    (log : n'.log = n.log) : Ensues n n' where
  term_le := Nat.le_of_eq term.symm
  leads hl _ := ⟨role.trans hl, [], by rw [log, List.append_nil], fun _ he ↦ nomatch he⟩

/-- A peer that does not lead has nothing to keep in its term. -/
theorem of_not_leads {n n' : Node} (role : n.role ≠ .leader) (term : n'.term = n.term) :
    Ensues n n' where
  term_le := Nat.le_of_eq term.symm
  leads hl _ := absurd hl role

end Ensues

section
variable {cfg : Config} {s t : World} {p x : Uid} {rcv : Option Message} {o : Oracle} {v w : View}

/-- One move keeps it, where terms do not wrap. -/
theorem Ensues.of_move (h : Wired cfg s) (below : TermsBelow cfg s)
    (hr : ∀ m, rcv = some m → m ∈ s.net) (hp : p ∈ cfg.cluster x)
    (move : Move rcv o (s.peers p) v w) : Ensues v.node w.node := by
  cases move with
  | say | grant | count | commit | commitAlone => exact of_eq rfl rfl rfl
  | bump received letter addressed higher => exact of_lt higher
  | stand waits known =>
    have hterm := h.term_succ below hr hp known
    refine of_lt ?_
    dsimp only
    omega
  | elect stands => exact of_not_leads (by simp [stands]) rfl
  | append leads log term origin =>
    refine ⟨Nat.le_refl _, fun _ _ ↦ ⟨leads, _, rfl, fun e he ↦ ?_⟩⟩
    rw [List.mem_singleton.mp he, term, origin.position.2]
  | accept received addressed term follows => exact of_not_leads (by simp [follows]) rfl

/-- Any number of moves keep it. -/
theorem Ensues.of_moves (h : Wired cfg s) (below : TermsBelow cfg s)
    (hr : ∀ m, rcv = some m → m ∈ s.net) (hp : p ∈ cfg.cluster x)
    (moves : Relation.ReflTransGen (Move rcv o (s.peers p)) v w) : Ensues v.node w.node := by
  induction moves with
  | refl => exact Ensues.refl _
  | tail _ move ih => exact ih.trans (.of_move h below hr hp move)

/-- Every peer after a step. -/
theorem Wired.ensues {a : Action} (h : Wired cfg s) (below : TermsBelow cfg s)
    (next : s.step cfg a = some t) (q : Uid) : Ensues (s.peers q).node (t.peers q).node := by
  have allowed := (World.step_cases next).1
  obtain ⟨e, moves, -, hpeers, -⟩ := h.call below next
  rw [hpeers]
  rcases eq_or_ne q a.peer with rfl | hq
  · rw [Function.update_self]
    exact .of_moves h below allowed.received (Config.mem_cluster_clusterOf allowed.1) moves
  · rw [Function.update_of_ne hq]
    exact Ensues.refl _

end

/-- Every peer over a run in which no term reaches the last one. -/
theorem Run.ensues {cfg : Config} {h : Hist} {s : World}
    (run : Run cfg (fun _ s _ ↦ TermsBelow cfg s) h s) : Wired cfg s ∧
      (states h s).Pairwise fun later earlier ↦
        ∀ q, Ensues (earlier.peers q).node (later.peers q).node := by
  induction run with
  | initial => exact ⟨Wired.initial cfg, List.pairwise_singleton _ _⟩
  | step run below next ih =>
    obtain ⟨wired, ih⟩ := ih
    have hlast := wired.ensues below next
    refine ⟨wired.step below next, List.pairwise_cons.mpr ⟨fun s' hs' q ↦ ?_, ih⟩⟩
    rcases List.mem_cons.mp hs' with rfl | hs''
    · exact hlast q
    · exact (List.rel_of_pairwise_cons ih hs'' q).trans (hlast q)

/-- Of any two states of such a run, one ensues from the other. -/
theorem Run.ensues_total {cfg : Config} {h : Hist} {s : World}
    (run : Run cfg (fun _ s _ ↦ TermsBelow cfg s) h s) {s₁ s₂ : World} (h₁ : s₁ ∈ states h s)
    (h₂ : s₂ ∈ states h s) : (∀ q, Ensues (s₁.peers q).node (s₂.peers q).node) ∨
      ∀ q, Ensues (s₂.peers q).node (s₁.peers q).node := by
  let R (u v : World) : Prop := (∀ q, Ensues (u.peers q).node (v.peers q).node) ∨
    ∀ q, Ensues (v.peers q).node (u.peers q).node
  have : Std.Symm R := ⟨fun _ _ hR ↦ hR.symm⟩
  have hpairs : (states h s).Pairwise R := run.ensues.2.imp Or.inr
  have hrefl : ∀ u ∈ states h s, R u u := fun u _ ↦ Or.inl fun q ↦ Ensues.refl (u.peers q).node
  exact hpairs.forall_of_forall hrefl h₁ h₂

end TrustedDcr.System
