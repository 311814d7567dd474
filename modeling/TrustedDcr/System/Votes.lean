import TrustedDcr.System.Terms

/-!
# One vote a term

A peer endorses at most one candidate while its term stays, and none in a term in
which it stands or leads: raising the term is all that clears the endorsement.
-/

namespace TrustedDcr.Msg

/-- The message is a vote of `p` in the term. -/
def Message.isVote (p : Uid) (term : Nat) : Message → Bool
  | .electionRsp rsp => rsp.source == p && rsp.term == term && rsp.success
  | _ => false

end TrustedDcr.Msg

namespace TrustedDcr.System
open TrustedDcr.Msg TrustedDcr.Dcr TrustedDcr.Enclave TrustedDcr.Theory

/-- The number of votes of a peer in a term among the messages sent. -/
def votes (p : Uid) (term : Nat) (net : List Message) : Nat := net.countP (Message.isVote p term)

/-- Messages sent add their votes. -/
@[simp] theorem votes_append (p : Uid) (term : Nat) (net ms : List Message) :
    votes p term (net ++ ms) = votes p term net + votes p term ms := List.countP_append

/-- What a peer has voted agrees with its term, role and endorsement, and with the terms in which
it `stood` or led. -/
structure Ballot (p : Uid) (stood : Nat → Prop) (n : Node) (net : List Message) : Prop where
  once : ∀ term, votes p term net ≤ 1
  future : ∀ term, n.term < term → votes p term net = 0
  unused : (n.role = .follower → n.endorsement = emptyUid) → votes p n.term net = 0
  past : ∀ term, stood term →
    term ≤ n.term ∧ (term = n.term → n.role ≠ .follower) ∧ votes p term net = 0

namespace Ballot

variable {p : Uid} {stood : Nat → Prop} {n n' : Node} {net ms : List Message}

/-- Messages that are no votes of the peer do not matter. -/
theorem silent (hb : Ballot p stood n net) (hms : ∀ term, votes p term ms = 0) :
    Ballot p stood n (net ++ ms) where
  once term := by
    rw [votes_append, hms]
    exact hb.once term
  future term hterm := by
    rw [votes_append, hms]
    exact hb.future term hterm
  unused hfree := by
    rw [votes_append, hms]
    exact hb.unused hfree
  past term hstood := by
    rw [votes_append, hms]
    exact hb.past term hstood

/-- In a later term nothing has been voted yet. -/
theorem raise (hb : Ballot p stood n net) (higher : n.term < n'.term) : Ballot p stood n' net where
  once := hb.once
  future term hterm := hb.future term (higher.trans hterm)
  unused _ := hb.future _ higher
  past term hstood := by
    obtain ⟨hle, -, hnone⟩ := hb.past term hstood
    refine ⟨hle.trans (Nat.le_of_lt higher), fun heq ↦ ?_, hnone⟩
    omega

/-- A peer that does not follow keeps its votes as long as it does not follow. -/
theorem hold (hb : Ballot p stood n net) (term : n'.term = n.term) (role : n.role ≠ .follower)
    (role' : n'.role ≠ .follower) : Ballot p stood n' net where
  once := hb.once
  future := by
    rw [term]
    exact hb.future
  unused _ := by
    rw [term]
    exact hb.unused fun h ↦ absurd h role
  past T hstood := by
    obtain ⟨hle, -, hnone⟩ := hb.past T hstood
    exact ⟨by omega, fun _ ↦ role', hnone⟩

/-- Log and commit index do not matter. -/
theorem congr (hb : Ballot p stood n net) (term : n'.term = n.term) (role : n'.role = n.role)
    (endorsement : n'.endorsement = n.endorsement) : Ballot p stood n' net where
  once := hb.once
  future := by
    rw [term]
    exact hb.future
  unused := by
    rw [term, role, endorsement]
    exact hb.unused
  past := by
    rw [term, role]
    exact hb.past

/-- A free follower votes. -/
theorem grant (hb : Ballot p stood n net) (follows : n.role = .follower)
    (free : n.endorsement = emptyUid) {candidate voter : Uid} (named : candidate ≠ emptyUid) :
    Ballot p stood { n with endorsement := candidate }
      (net ++ [.electionRsp ⟨candidate, voter, n.term, true⟩]) := by
  have hnone : votes p n.term net = 0 := hb.unused fun _ ↦ free
  have hone (term : Nat) :
      votes p term [.electionRsp ⟨candidate, voter, n.term, true⟩] ≤
        if term = n.term then 1 else 0 := by
    by_cases hterm : term = n.term
    · rw [if_pos hterm]
      exact List.countP_le_length
    · simp [votes, Message.isVote, Ne.symm hterm]
  constructor
  case once =>
    intro term
    have h₁ := hb.once term
    have h₂ := hone term
    rw [votes_append]
    split at h₂
    · next hterm =>
      rw [hterm] at h₂ ⊢
      omega
    · omega
  case future =>
    intro term hterm
    have h₁ := hb.future term hterm
    have h₂ := hone term
    rw [if_neg (Nat.ne_of_gt hterm)] at h₂
    rw [votes_append]
    omega
  case unused => exact fun hfree ↦ absurd (hfree follows) named
  case past =>
    intro term hstood
    obtain ⟨hle, hrole, h₁⟩ := hb.past term hstood
    have hne : term ≠ n.term := fun heq ↦ hrole heq follows
    have h₂ := hone term
    rw [if_neg hne] at h₂
    refine ⟨hle, hrole, ?_⟩
    rw [votes_append]
    omega

/-- The current state counts as well. -/
theorem recalled (hb : Ballot p stood n net) {stood' : Nat → Prop}
    (h : ∀ term, stood' term → n.role ≠ .follower ∧ n.term = term ∨ stood term) :
    Ballot p stood' n net where
  once := hb.once
  future := hb.future
  unused := hb.unused
  past := by
    intro term hstood
    rcases h term hstood with ⟨role, rfl⟩ | hstood
    · exact ⟨Nat.le_refl _, fun _ ↦ role, hb.unused fun h ↦ absurd h role⟩
    · exact hb.past term hstood

end Ballot

section
variable {cfg : Config} {s t : World} {p x : Uid} {rcv : Option Message} {o : Oracle}
  {stood : Nat → Prop} {v w : View}

/-- Nothing said is a vote. -/
theorem votes_of_spoken {n : Node} {ms : List Message} (spoken : ∀ m ∈ ms, Says rcv n m) (q : Uid)
    (term : Nat) : votes q term ms = 0 := by
  refine List.countP_eq_zero.mpr fun m hm hvote ↦ ?_
  cases m with
  | electionRsp rsp =>
    have hrefused : rsp.success = false := (spoken _ hm).2
    simp [Message.isVote, hrefused] at hvote
  | _ => exact nomatch hvote

/-- A move of a call keeps the votes of the calling peer. -/
theorem Ballot.move (wired : Wired cfg s) (below : TermsBelow cfg s)
    (named : emptyUid ∉ cfg.peerToEventMap) (hr : ∀ m, rcv = some m → m ∈ s.net)
    (hp : p ∈ cfg.cluster x) (hb : Ballot p stood v.node (s.net ++ v.sent))
    (move : Move rcv o (s.peers p) v w) : Ballot p stood w.node (s.net ++ w.sent) := by
  cases move with
  | say ms ds spoken =>
    rw [← List.append_assoc]
    exact hb.silent (votes_of_spoken spoken p)
  | bump received letter addressed higher => exact hb.raise higher
  | stand waits known =>
    have hterm := wired.term_succ below hr hp known
    refine hb.raise ?_
    dsimp only
    omega
  | grant received addressed term follows free =>
    rw [← List.append_assoc]
    obtain ⟨⟨y, hs, -⟩, -⟩ := wired.received hr received rfl
    exact hb.grant follows free fun he ↦ named (he ▸ Config.mem_of_mem_cluster hs)
  | count received addressed term stands => exact hb.congr rfl rfl rfl
  | elect stands => exact hb.hold rfl (by simp [stands]) (by simp)
  | append | commit | commitAlone => exact hb.congr rfl rfl rfl
  | accept =>
    rw [← List.append_assoc]
    refine Ballot.silent (hb.congr rfl rfl rfl) fun term ↦ rfl

/-- A step keeps the votes of every peer. -/
theorem Ballot.step (wired : Wired cfg s) (below : TermsBelow cfg s)
    (named : emptyUid ∉ cfg.peerToEventMap) {a : Action} (next : s.step cfg a = some t) {q : Uid}
    (hb : Ballot q stood (s.peers q).node s.net) : Ballot q stood (t.peers q).node t.net := by
  obtain ⟨allowed, e, goes, hpeers, hnet, -⟩ := World.step_cases next
  have hp := Config.mem_cluster_clusterOf allowed.1
  rw [hpeers, hnet]
  rcases eq_or_ne q a.peer with rfl | hq
  · rw [Function.update_self]
    refine Wiring.keeps (Q := fun v ↦ Ballot a.peer stood v.node (s.net ++ v.sent)) wired below
      allowed.received hp (fun v w _ hb move _ ↦ hb.move wired below named allowed.received hp move)
      (Wiring.start wired a.peer) ?_ goes.moves
    rwa [show (s.enclave a.peer).view.sent = [] from rfl, List.append_nil]
  · rw [Function.update_of_ne hq]
    have hw := (Wiring.start wired a.peer).moves wired below allowed.received hp goes.moves
    refine hb.silent fun term ↦ List.countP_eq_zero.mpr fun m hm hvote ↦ ?_
    cases m with
    | electionRsp rsp =>
      have hsource : rsp.source = a.peer := (hw.posted _ hm _ rfl).1
      simp only [Message.isVote, hsource, Bool.and_eq_true, beq_iff_eq] at hvote
      exact hq hvote.1.1.symm
    | _ => exact nomatch hvote

end

/-- In some state of the run the peer stands or leads in the term. -/
def Stood (h : Hist) (s : World) (p : Uid) (term : Nat) : Prop :=
  ∃ s' ∈ states h s, (s'.peers p).role ≠ .follower ∧ (s'.peers p).term = term

/-- The votes of a peer over a whole run. -/
theorem Run.ballot {cfg : Config} (named : emptyUid ∉ cfg.peerToEventMap) {h : Hist} {s : World}
    (run : Run cfg (fun _ s _ ↦ TermsBelow cfg s) h s) (p : Uid) :
    Wired cfg s ∧ Ballot p (Stood h s p) (s.peers p).node s.net := by
  induction run with
  | initial =>
    have hb : Ballot p (fun _ ↦ False) ((World.initial cfg).peers p).node [] :=
      ⟨fun _ ↦ Nat.zero_le 1, fun _ _ ↦ rfl, fun _ ↦ rfl, fun _ h ↦ h.elim⟩
    refine ⟨Wired.initial cfg, hb.recalled ?_⟩
    rintro term ⟨s', hs', hstood⟩
    obtain rfl := List.mem_singleton.mp hs'
    exact Or.inl hstood
  | step run below next ih =>
    obtain ⟨wired, hb⟩ := ih
    refine ⟨wired.step below next, (hb.step wired below named next).recalled ?_⟩
    rintro term ⟨s', hs', hstood⟩
    rcases List.mem_cons.mp hs' with rfl | hs'
    · exact Or.inl hstood
    · exact Or.inr ⟨s', hs', hstood⟩

/-- Over every run in which no term reaches the last one, a peer's term never decreases, it votes
at most once in a term, and in no term in which it stands or leads.
`src/enclave/enclave.cpp:148–170,826–853`. -/
theorem votes_once_a_term {cfg : Config} (named : emptyUid ∉ cfg.peerToEventMap) {h : Hist}
    {s : World} (run : Run cfg (fun _ s _ ↦ TermsBelow cfg s) h s) (p : Uid) :
    ((states h s).Pairwise fun later earlier ↦ (earlier.peers p).term ≤ (later.peers p).term) ∧
      (∀ term, votes p term s.net ≤ 1) ∧
      ∀ s' ∈ states h s, (s'.peers p).role ≠ .follower → votes p (s'.peers p).term s.net = 0 := by
  obtain ⟨-, hb⟩ := run.ballot named p
  refine ⟨run.ensues.2.imp fun h ↦ (h p).term_le, hb.once, fun s' hs' role ↦ ?_⟩
  exact (hb.past _ ⟨s', hs', role, rfl⟩).2.2

/-- The second of two peers votes for the first, asked twice, and has voted once. -/
theorem duo_votes_once : ∃ h s, Run duo (fun _ s _ ↦ TermsBelow duo s) h s ∧
    votes ⟨0, 12⟩ 1 s.net = 1 ∧ (∀ term, votes ⟨0, 12⟩ term s.net ≤ 1) ∧
    ∀ s' ∈ states h s, (s'.peers ⟨0, 11⟩).role ≠ .follower →
      votes ⟨0, 11⟩ (s'.peers ⟨0, 11⟩).term s.net = 0 := by
  obtain ⟨h, s, run, hvoted⟩ := exists_run_of_replay duo (fun _ s _ ↦ TermsBelow duo s)
    [.tick ⟨0, 11⟩ 1 emptyUid, .tick ⟨0, 11⟩ 10000 emptyUid, .tick ⟨0, 12⟩ 1 emptyUid,
      .deliver ⟨0, 12⟩ 0, .deliver ⟨0, 11⟩ 1, .deliver ⟨0, 12⟩ 2, .deliver ⟨0, 12⟩ 2,
      .deliver ⟨0, 11⟩ 3]
    (fun _ s ↦ votes ⟨0, 12⟩ 1 s.net = 1) (by decide +kernel)
  have named : emptyUid ∉ duo.peerToEventMap := by decide +kernel
  exact ⟨h, s, run, hvoted, (votes_once_a_term named run ⟨0, 12⟩).2.1,
    (votes_once_a_term named run ⟨0, 11⟩).2.2⟩

end TrustedDcr.System
