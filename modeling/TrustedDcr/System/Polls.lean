import TrustedDcr.System.Alone
import TrustedDcr.System.Leaders
import TrustedDcr.System.Refusals

/-!
# Polls before an election

`poll_votes` is a bare counter. It starts at one with every new term, but neither a
new round of polls nor anything about a response's sender or term resets or stops
it. Where each counted response answers the last round and comes from a peer not
counted yet, and all counted before have answered that round too, an election has
the grants of a majority.
-/

namespace TrustedDcr.Msg

/-- The source and term of a message that grants the poll of a peer. -/
def Message.pollGrant (p : Uid) : Message → Option (Uid × Nat)
  | .pollRsp rsp => if rsp.target = p ∧ rsp.success then some (rsp.source, rsp.term) else none
  | _ => none

end TrustedDcr.Msg

namespace TrustedDcr.System
open TrustedDcr.Msg TrustedDcr.Dcr TrustedDcr.Enclave TrustedDcr.Theory

/-! ### What has been asked, answered and counted -/

/-- The messages a step has sent. -/
def sentBy (s t : World) : List Message := t.net.drop s.net.length

/-- The requests of the round of polls that the peer has started last. -/
def round (p : Uid) : Hist → World → List Message
  | [], _ => []
  | (s, a) :: h, t =>
    let polls := (sentBy s t).filter Message.isPoll
    if a.peer = p ∧ polls ≠ [] then polls else round p h s

/-- Who has granted the peer's last round of polls, with the term of the answer. -/
def answered (p : Uid) : Hist → World → List (Uid × Nat)
  | [], _ => []
  | (s, a) :: h, t =>
    if a.peer = p ∧ (sentBy s t).filter Message.isPoll ≠ [] then []
    else
      (match a.call with
      | .recv msg => if msg ∈ round p h s then (sentBy s t).filterMap (Message.pollGrant p) else []
      | _ => []) ++ answered p h s

/-- Whose responses the peer has counted since a letter has brought it into its term. -/
def counted (p : Uid) : Hist → World → List Uid
  | [], _ => []
  | (s, a) :: h, _ =>
    if a.peer = p then
      (a.call.pollVote (s.peers p)).toList ++
        if (a.call.enters (s.peers p)).isNone then counted p h s else []
    else counted p h s

/-- A counted response is of no earlier term and answers the last round, its source has not been
counted in the term, and all that have been have answered that round in the term. -/
def PollsFairly (h : Hist) (s : World) (a : Action) : Prop :=
  match a.call with
  | .recv (.pollRsp rsp) =>
    let p := s.peers a.peer
    p.countsPoll rsp = true → p.term ≤ rsp.term ∧ (rsp.source, rsp.term) ∈ answered a.peer h s ∧
      (p.term = rsp.term → rsp.source ∉ counted a.peer h s ∧
        ∀ q ∈ counted a.peer h s, (q, rsp.term) ∈ answered a.peer h s)
  | _ => True

instance (h : Hist) (s : World) (a : Action) : Decidable (PollsFairly h s a) := by
  unfold PollsFairly
  induction a.call using Call.casesOn with
  | recv m => induction m using Message.casesOn <;> infer_instance
  | _ => infer_instance

/-- More than half of the members, the peer included, have granted its last round in the term. -/
def Polled (cfg : Config) (h : Hist) (s : World) (p : Uid) (term : Nat) : Prop :=
  ∃ Q : Finset Uid, Q ⊆ cfg.cluster (cfg.clusterOf p) ∧ p ∈ Q ∧
    (s.peers p).clusterSize / 2 < Q.card ∧ ∀ q ∈ Q, q ≠ p → (q, term) ∈ answered p h s

/-- The poll response that a call delivers starts an election in the term. -/
def Action.ElectsIn (s : World) (a : Action) (term : Nat) : Prop :=
  match a.call with
  | .recv (.pollRsp rsp) => (s.peers a.peer).electsIn rsp = some term
  | _ => False

instance (s : World) (a : Action) (term : Nat) : Decidable (a.ElectsIn s term) := by
  unfold Action.ElectsIn
  induction a.call using Call.casesOn with
  | recv m => induction m using Message.casesOn <;> infer_instance
  | _ => infer_instance

private theorem Action.ElectsIn.response {s : World} {a : Action} {term : Nat}
    (h : a.ElectsIn s term) :
    ∃ rsp, a.call = .recv (.pollRsp rsp) ∧ (s.peers a.peer).electsIn rsp = some term := by
  unfold Action.ElectsIn at h
  split at h
  · next rsp received => exact ⟨rsp, received, h⟩
  · exact h.elim

/-! ### The counter -/

section
variable {cfg : Config} {C : Hist → World → Action → Prop} {h : Hist} {s t : World} {a : Action}
  {p : Uid}

private theorem counted_self : counted a.peer ((s, a) :: h) t =
    (a.call.pollVote (s.peers a.peer)).toList ++
    if (a.call.enters (s.peers a.peer)).isNone then counted a.peer h s else [] := by
  rw [counted, if_pos rfl]

private theorem counted_other (other : a.peer ≠ p) : counted p ((s, a) :: h) t = counted p h s := by
  rw [counted, if_neg other]

private theorem PollsFairly.of_counts (fair : PollsFairly h s a) {rsp : PollRsp}
    (received : a.call = .recv (.pollRsp rsp))
    (counts : (s.peers a.peer).countsPoll rsp = true) : (s.peers a.peer).term ≤ rsp.term ∧
      (rsp.source, rsp.term) ∈ answered a.peer h s ∧
      ((s.peers a.peer).term = rsp.term → rsp.source ∉ counted a.peer h s ∧
        ∀ q ∈ counted a.peer h s, (q, rsp.term) ∈ answered a.peer h s) := by
  unfold PollsFairly at fair
  rw [received] at fair
  exact fair counts

/-- A counted response brings the peer into its term exactly if that is a later one. -/
theorem isNone_enters_iff {rsp : PollRsp} (received : a.call = .recv (.pollRsp rsp))
    (counts : (s.peers a.peer).countsPoll rsp = true) :
    (a.call.enters (s.peers a.peer)).isNone = true ↔ rsp.term ≤ (s.peers a.peer).term := by
  rw [received, Call.enters_of_letter (l := ⟨rsp.source, rsp.target, rsp.term⟩) rfl]
  simp [(Peer.countsPoll_iff.mp counts).1]

/-- The votes of a follower are its own and those counted in its term, and no majority yet. -/
structure Counts (h : Hist) (s : World) (p : Uid) : Prop where
  votes : (s.peers p).pollVotes = 1 + (counted p h s).length
  few : (s.peers p).pollVotes ≤ 1 ∨ (s.peers p).pollVotes ≤ (s.peers p).clusterSize / 2

/-- In every run a follower's poll counts its own vote and the responses received. -/
theorem Run.counts (run : Run cfg C h s) (follows : (s.peers p).role = .follower) :
    Counts h s p := by
  induction run with
  | initial =>
    have own := (names_configured cfg p follows).1
    exact ⟨own, Or.inl (Nat.le_of_eq own)⟩
  | @step h s t a run meets next ih =>
    by_cases own : a.peer = p
    · subst own
      have keeps := World.step_keeps next follows
      have few (vote : a.call.pollVotes (s.peers a.peer) ≠ 0) :
          (t.peers a.peer).pollVotes ≤ (t.peers a.peer).clusterSize / 2 := by
        cases hvote : a.call.pollVote (s.peers a.peer) with
        | none => simp [Call.pollVotes, hvote] at vote
        | some source =>
          obtain ⟨rsp, received, counts, -⟩ := Call.pollVote_eq_some.mp hvote
          exact World.step_polled next received (Peer.countsPoll_iff.mp counts).1 follows
      cases enters : a.call.enters (s.peers a.peer) with
      | some l =>
        rw [enters] at keeps
        refine ⟨?_, ?_⟩
        · rw [keeps.2.1, counted_self, enters]
          simp [Call.pollVotes]
        · by_cases vote : a.call.pollVotes (s.peers a.peer) = 0
          · exact Or.inl (by omega)
          · exact Or.inr (few vote)
      | none =>
        rw [enters] at keeps
        obtain ⟨before, -, votes, -⟩ := keeps
        obtain ⟨hvotes, hfew⟩ := ih before
        refine ⟨?_, ?_⟩
        · rw [votes, hvotes, counted_self, enters]
          simp [Call.pollVotes]
          omega
        · by_cases vote : a.call.pollVotes (s.peers a.peer) = 0
          · have size : (t.peers a.peer).clusterSize = (s.peers a.peer).clusterSize :=
              ((run.step meets next).local.placed a.peer).2.2.trans
                (run.local.placed a.peer).2.2.symm
            rwa [size, votes, vote, Nat.add_zero]
          · exact Or.inr (few vote)
    · rw [World.step_other next own] at follows
      obtain ⟨votes, few⟩ := ih follows
      rw [← World.step_other next own] at votes few
      exact ⟨by rwa [counted_other own], few⟩

/-- Whose responses have been counted are other members. -/
theorem Run.counted_mem (run : Run cfg C h s) (q : Uid) (hq : q ∈ counted p h s) :
    q ∈ cfg.cluster (cfg.clusterOf p) ∧ q ≠ p := by
  induction run with
  | initial => exact nomatch hq
  | @step h s t a run meets next ih =>
    by_cases own : a.peer = p
    · subst own
      rw [counted_self] at hq
      rcases List.mem_append.mp hq with hq | hq
      · obtain ⟨rsp, received, counts, rfl⟩ := Call.pollVote_eq_some.mp (Option.mem_toList.mp hq)
        have sent : .pollRsp rsp ∈ s.net :=
          (World.step_cases next).1.received _ (congrArg Call.received received)
        obtain ⟨⟨x, hsource, htarget⟩, hne⟩ := run.local.posted _ sent _ rfl
        have target : rsp.target = a.peer :=
          (Peer.countsPoll_iff.mp counts).1.trans (run.local.placed a.peer).1
        rw [target] at htarget hne
        rw [Config.clusterOf_of_mem htarget]
        exact ⟨hsource, hne⟩
      · split at hq
        · exact ih hq
        · exact nomatch hq
    · exact ih (counted_other own ▸ hq)

/-- Fairly polled, no peer is counted twice in a term. -/
theorem Run.counted_nodup (run : Run cfg PollsFairly h s) : (counted p h s).Nodup := by
  induction run with
  | initial => exact List.nodup_nil
  | @step h s t a run meets next ih =>
    by_cases own : a.peer = p
    · subst own
      rw [counted_self]
      cases hvote : a.call.pollVote (s.peers a.peer) with
      | none =>
        rw [Option.toList_none, List.nil_append]
        split
        · exact ih
        · exact List.nodup_nil
      | some source =>
        obtain ⟨rsp, received, counts, rfl⟩ := Call.pollVote_eq_some.mp hvote
        rw [Option.toList_some, List.singleton_append]
        split
        · next current =>
          have fair := meets.of_counts received counts
          have same : (s.peers a.peer).term = rsp.term :=
            Nat.le_antisymm fair.1 ((isNone_enters_iff received counts).mp current)
          exact List.nodup_cons.mpr ⟨(fair.2.2 same).1, ih⟩
        · exact List.nodup_singleton _
    · rw [counted_other own]
      exact ih

/-- Distinct other members that have granted the last round, with the peer itself. -/
theorem Polled.of_voters {term : Nat} (voters : List Uid) (member : p ∈ cfg.cluster (cfg.clusterOf p))
    (nodup : voters.Nodup) (others : ∀ q ∈ voters, q ∈ cfg.cluster (cfg.clusterOf p) ∧ q ≠ p)
    (granted : ∀ q ∈ voters, (q, term) ∈ answered p h s)
    (majority : (s.peers p).clusterSize / 2 < 1 + voters.length) : Polled cfg h s p term := by
  refine ⟨insert p voters.toFinset, ?_, Finset.mem_insert_self _ _, ?_, ?_⟩
  · refine Finset.insert_subset member fun q hq ↦ ?_
    exact (others q (List.mem_toFinset.mp hq)).1
  · have fresh : p ∉ voters.toFinset := fun hp ↦ (others p (List.mem_toFinset.mp hp)).2 rfl
    rw [Finset.card_insert_of_notMem fresh, List.toFinset_card_of_nodup nodup]
    omega
  · intro q hq other
    exact granted q (List.mem_toFinset.mp (Finset.mem_of_mem_insert_of_ne hq other))

/-- In a run with fair polls, whenever a response to a poll starts an election, more than half of
the members have granted the last round in the term. `src/enclave/enclave.cpp:443–459,807–824`. -/
theorem polled_of_fair (run : Run cfg PollsFairly h s) (fair : PollsFairly h s a)
    (next : s.step cfg a = some t) {term : Nat} (elects : a.ElectsIn s term) :
    Polled cfg h s a.peer term := by
  obtain ⟨rsp, received, elects⟩ := elects.response
  obtain ⟨addressed, follows, majority, hterm⟩ := Peer.electsIn_eq_some.mp elects
  have member := Config.mem_cluster_clusterOf (World.step_cases next).1.1
  cases success : rsp.success with
  | false =>
    -- no vote is counted, so that the peer's own one suffices
    refine Polled.of_voters [] member List.nodup_nil (fun _ hq ↦ nomatch hq)
      (fun _ hq ↦ nomatch hq) ?_
    rw [success] at majority
    by_cases later : (s.peers a.peer).term < rsp.term
    · rw [Peer.counting, if_pos later] at majority
      exact majority
    · rw [Peer.counting, if_neg later] at majority follows
      have few := (run.counts follows).few
      simp only [Bool.toNat_false, Nat.add_zero] at majority
      simp only [List.length_nil]
      omega
  | true =>
    have counts : (s.peers a.peer).countsPoll rsp = true := by
      refine Peer.countsPoll_iff.mpr ⟨addressed, ?_, success⟩
      by_cases later : (s.peers a.peer).term < rsp.term
      · exact Or.inl later
      · rw [Peer.counting, if_neg later] at follows
        exact Or.inr follows
    have vote := Call.pollVote_eq_some.mpr ⟨rsp, received, counts, rfl⟩
    have run' := run.step fair next
    have voters : counted a.peer ((s, a) :: h) t = rsp.source ::
        if rsp.term ≤ (s.peers a.peer).term then counted a.peer h s else [] := by
      rw [counted_self, vote]
      simp only [isNone_enters_iff received counts]
      rfl
    obtain ⟨le, granted, same⟩ := fair.of_counts received counts
    refine Polled.of_voters (counted a.peer ((s, a) :: h) t) member run'.counted_nodup
      (fun q hq ↦ run'.counted_mem q hq) ?_ ?_
    · rw [voters]
      by_cases later : (s.peers a.peer).term < rsp.term
      · rw [Peer.counting, if_pos later] at hterm
        rw [if_neg (Nat.not_le.mpr later), ← hterm]
        exact List.forall_mem_singleton.mpr granted
      · have heq := Nat.le_antisymm le (Nat.not_lt.mp later)
        rw [Peer.counting, if_neg later] at hterm
        rw [if_pos (Nat.le_of_eq heq.symm), ← hterm, heq]
        exact List.forall_mem_cons.mpr ⟨granted, (same heq).2⟩
    · rw [voters, List.length_cons]
      rw [success, Bool.toNat_true] at majority
      by_cases later : (s.peers a.peer).term < rsp.term
      · rw [Peer.counting, if_pos later] at majority
        rw [if_neg (Nat.not_le.mpr later)]
        exact majority
      · rw [Peer.counting, if_neg later] at majority follows
        rw [if_pos (Nat.not_lt.mp later)]
        have votes := (run.counts follows).votes
        omega

end

/-- The first of four peers stands once two others have granted its poll. -/
theorem quartet_polled : ∃ h s a t, Run quartet PollsFairly h s ∧ s.step quartet a = some t ∧
    a.ElectsIn s 0 ∧ Polled quartet h s a.peer 0 := by
  obtain ⟨h, s, a, t, run, fair, next, elects⟩ := exists_step_of_replay quartet PollsFairly
    [.tick ⟨0, 11⟩ 1 emptyUid, .tick ⟨0, 11⟩ 10000 emptyUid, .tick ⟨0, 12⟩ 1 emptyUid,
      .tick ⟨0, 13⟩ 1 emptyUid, .deliver ⟨0, 12⟩ 0, .deliver ⟨0, 13⟩ 1, .deliver ⟨0, 11⟩ 3]
    (.deliver ⟨0, 11⟩ 4) (fun _ s a _ ↦ a.ElectsIn s 0) (by decide +kernel)
  exact ⟨h, s, a, t, run, next, elects, polled_of_fair run fair next elects⟩

/-- The grant of the second delivered twice lets the first stand: two of four have granted. -/
theorem not_polled : ¬ ∀ (cfg : Config) (h : Hist) (s t : World) (a : Action) (term : Nat),
    Run cfg anyStep h s → s.step cfg a = some t → a.ElectsIn s term →
    Polled cfg h s a.peer term := by
  intro claim
  obtain ⟨h, s, a, t, run, -, next, elects, peer, hanswered, size⟩ :=
    exists_step_of_replay quartet anyStep
      [.tick ⟨0, 11⟩ 1 emptyUid, .tick ⟨0, 11⟩ 10000 emptyUid, .tick ⟨0, 12⟩ 1 emptyUid,
        .deliver ⟨0, 12⟩ 0, .deliver ⟨0, 11⟩ 3]
      (.deliver ⟨0, 11⟩ 3) (fun h s a _ ↦ a.ElectsIn s 0 ∧ a.peer = ⟨0, 11⟩ ∧
        answered ⟨0, 11⟩ h s = [(⟨0, 12⟩, 0)] ∧ (s.peers ⟨0, 11⟩).clusterSize = 4)
      (by decide +kernel)
  obtain ⟨Q, -, -, majority, granted⟩ := claim quartet h s t a 0 run next elects
  rw [peer] at majority granted
  have few : Q ⊆ {⟨0, 11⟩, ⟨0, 12⟩} := by
    intro q hq
    by_cases own : q = ⟨0, 11⟩
    · simp [own]
    · have answer := granted q hq own
      rw [hanswered] at answer
      simp_all
  have card := Finset.card_le_card few
  rw [size] at majority
  simp at card
  omega

end TrustedDcr.System
