import TrustedDcr.System.Simulation

/-!
# One leader a term

`recv_election_rsp` counts every vote it is handed: one of an earlier term, or the
same one again. Where votes are counted once and in their own term, two leaders of
one term would need two quorums that share a voter.
-/

namespace TrustedDcr.System
open TrustedDcr.Msg TrustedDcr.Dcr TrustedDcr.Enclave TrustedDcr.Theory

/-- Over a whole run with fair elections, a cluster has one leader a term.
`src/enclave/enclave.cpp:826–875`. -/
theorem leader_unique_of_fair {cfg : Config} {h : Hist} {s : World}
    (run : Run cfg (ElectsFairly cfg) h s) {x p q : Uid} (hp : p ∈ cfg.cluster x)
    (hq : q ∈ cfg.cluster x) {s₁ s₂ : World} (h₁ : s₁ ∈ states h s) (h₂ : s₂ ∈ states h s)
    (leads₁ : (s₁.peers p).role = .leader) (leads₂ : (s₂.peers q).role = .leader)
    (term : (s₁.peers p).term = (s₂.peers q).term) : p = q := by
  obtain ⟨elected, led⟩ := run.elected x
  have he₁ := led s₁ h₁ p hp leads₁
  have he₂ := led s₂ h₂ q hq leads₂
  rw [term, he₂] at he₁
  exact (Option.some.inj he₁).symm

/-- Two votes besides its own make the first of five peers the only leader. -/
theorem quintet_leader_unique : ∃ h s, Run quintet (ElectsFairly quintet) h s ∧
    (s.peers ⟨0, 11⟩).role = .leader ∧ ∀ q ∈ quintet.cluster ⟨0, 1⟩, (s.peers q).role = .leader →
      (s.peers ⟨0, 11⟩).term = (s.peers q).term → ⟨0, 11⟩ = q := by
  obtain ⟨h, s, run, hp, hleads⟩ := exists_run_of_replay quintet (ElectsFairly quintet)
    [.tick ⟨0, 11⟩ 1 emptyUid, .tick ⟨0, 11⟩ 10000 emptyUid, .tick ⟨0, 14⟩ 1 emptyUid,
      .tick ⟨0, 15⟩ 1 emptyUid, .deliver ⟨0, 14⟩ 2, .deliver ⟨0, 15⟩ 3, .deliver ⟨0, 11⟩ 4,
      .deliver ⟨0, 11⟩ 5, .deliver ⟨0, 14⟩ 8, .deliver ⟨0, 15⟩ 9, .deliver ⟨0, 11⟩ 10,
      .deliver ⟨0, 11⟩ 11]
    (fun _ s ↦ ⟨0, 11⟩ ∈ quintet.cluster ⟨0, 1⟩ ∧ (s.peers ⟨0, 11⟩).role = .leader)
    (by decide +kernel)
  refine ⟨h, s, run, hleads, fun q hq hlead hterm ↦ ?_⟩
  exact leader_unique_of_fair run hp hq List.mem_cons_self List.mem_cons_self hleads hlead hterm

/-- A vote delivered twice elects a second leader: two of five peers each get one vote. -/
theorem not_leader_unique : ¬ ∀ (cfg : Config) (h : Hist) (s : World) (x p q : Uid)
    (s₁ s₂ : World), Run cfg (fun _ s _ ↦ TermsBelow cfg s) h s → p ∈ cfg.cluster x →
    q ∈ cfg.cluster x → s₁ ∈ states h s → s₂ ∈ states h s → (s₁.peers p).role = .leader →
    (s₂.peers q).role = .leader → (s₁.peers p).term = (s₂.peers q).term → p = q := by
  intro claim
  obtain ⟨h, s, run, hp, hq, leads₁, leads₂, term⟩ := exists_run_of_replay quintet
    (fun _ s _ ↦ TermsBelow quintet s)
    [.tick ⟨0, 11⟩ 1 emptyUid, .tick ⟨0, 11⟩ 10000 emptyUid, .tick ⟨0, 14⟩ 1 emptyUid,
      .deliver ⟨0, 14⟩ 2, .deliver ⟨0, 11⟩ 4, .deliver ⟨0, 11⟩ 4, .deliver ⟨0, 14⟩ 7,
      .deliver ⟨0, 11⟩ 9, .deliver ⟨0, 11⟩ 9,
      .tick ⟨0, 12⟩ 1 emptyUid, .tick ⟨0, 12⟩ 10000 emptyUid, .tick ⟨0, 15⟩ 1 emptyUid,
      .deliver ⟨0, 15⟩ 17, .deliver ⟨0, 12⟩ 18, .deliver ⟨0, 12⟩ 18, .deliver ⟨0, 15⟩ 22,
      .deliver ⟨0, 12⟩ 23, .deliver ⟨0, 12⟩ 23]
    (fun _ s ↦ ⟨0, 11⟩ ∈ quintet.cluster ⟨0, 1⟩ ∧ ⟨0, 12⟩ ∈ quintet.cluster ⟨0, 1⟩ ∧
      (s.peers ⟨0, 11⟩).role = .leader ∧ (s.peers ⟨0, 12⟩).role = .leader ∧
      (s.peers ⟨0, 11⟩).term = (s.peers ⟨0, 12⟩).term)
    (by decide +kernel)
  have heq := claim quintet h s _ _ _ s s run hp hq List.mem_cons_self List.mem_cons_self leads₁
    leads₂ term
  exact absurd heq (by decide)

end TrustedDcr.System
