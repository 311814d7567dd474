import TrustedDcr.Enclave.Peer
import TrustedDcr.Theory.Quorum

/-!
# The index a majority has acknowledged

`largest_majority_index` takes the middle of the acknowledgements that have
arrived; it knows neither the cluster's size nor its own leader. The index it
returns is reached by one more than half of those that answered, which is a
majority of the cluster for two numbers of answers at each size.
-/

namespace TrustedDcr.Enclave
open TrustedDcr.Msg TrustedDcr.Theory.Quorum

namespace Peer

/-- How many of the members have acknowledged an index; who has not acknowledged counts as 0. -/
def acknowledging (p : Peer) (members : Finset Uid) (index : Nat) : Nat :=
  reach members (fun m ↦ p.indices.getD m 0) index

/-- The members that acknowledged an index, with the leader, are a majority of them all. -/
def Majority (p : Peer) (members : Finset Uid) (index : Nat) : Prop :=
  (members.card + 1) / 2 < p.acknowledging members index + 1

/-- An index above 0 is acknowledged by those with an entry only. -/
theorem countP_indices {p : Peer} {members : Finset Uid} (others : ∀ q ∈ p.indices, q ∈ members)
    {index : Nat} (pos : 0 < index) :
    (p.indices.toList.map Prod.snd).countP (index ≤ ·) = p.acknowledging members index := by
  have hvalues : p.indices.toList.map Prod.snd = p.indices.keys.map fun q ↦ p.indices.getD q 0 := by
    rw [← Std.ExtTreeMap.map_fst_toList_eq_keys, List.map_map]
    apply List.map_congr_left
    intro pair hpair
    have hget := Std.ExtTreeMap.mem_toList_iff_getElem?_eq_some.mp hpair
    rw [Function.comp_apply, Std.ExtTreeMap.getD_eq_getD_getElem?, hget]
    rfl
  have hset : (members.filter fun m ↦ index ≤ p.indices.getD m 0) =
      (p.indices.keys.filter fun q ↦ index ≤ p.indices.getD q 0).toFinset := by
    ext q
    simp only [Finset.mem_filter, List.mem_toFinset, List.mem_filter, Std.ExtTreeMap.mem_keys,
      decide_eq_true_eq]
    constructor
    · rintro ⟨-, hq⟩
      refine ⟨?_, hq⟩
      by_contra hn
      rw [Std.ExtTreeMap.getD_eq_fallback hn] at hq
      omega
    · rintro ⟨hq, hi⟩
      exact ⟨others q hq, hi⟩
  unfold acknowledging reach
  rw [hvalues, hset, List.countP_map, List.countP_eq_length_filter,
    List.toFinset_card_of_nodup (Std.ExtTreeMap.nodup_keys.filter _)]
  rfl

/-- What is returned is reached by one more than half of those that acknowledged. -/
theorem largestMajorityIndex_spec {p : Peer} (answered : 1 ≤ p.indices.size) :
    ∃ index, p.largestMajorityIndex = .ok index ∧
      ∀ i, i ≤ index ↔ p.indices.size / 2 + 1 ≤ (p.indices.toList.map Prod.snd).countP (i ≤ ·) := by
  let values := p.indices.toList.map Prod.snd
  let sorted := values.insertionSort (· ≤ ·)
  have hperm : sorted.Perm values := List.perm_insertionSort _ _
  have hlen : sorted.length = p.indices.size := by
    rw [hperm.length_eq, List.length_map, Std.ExtTreeMap.length_toList]
  have hi : (sorted.length - 1) / 2 < sorted.length := by omega
  refine ⟨sorted[(sorted.length - 1) / 2], ?_, fun i ↦ ?_⟩
  · unfold largestMajorityIndex
    simp only [show (p.indices.toList.map Prod.snd).insertionSort (· ≤ ·) = sorted from rfl,
      List.getElem?_eq_getElem hi]
  · rw [le_getElem_iff (List.pairwise_insertionSort _ _) hi, hperm.countP_eq, hlen,
      show p.indices.size - (p.indices.size - 1) / 2 = p.indices.size / 2 + 1 by omega]

/-- Without an acknowledgement nothing is returned. -/
theorem largestMajorityIndex_eq_error {p : Peer} (none : p.indices.size = 0) :
    p.largestMajorityIndex = .error .outOfRange := by
  have hlist : p.indices.toList = [] := by
    rw [← List.length_eq_zero_iff, Std.ExtTreeMap.length_toList, none]
  unfold largestMajorityIndex
  rw [hlist]
  rfl

/-- The index returned is the greatest that a majority has acknowledged, if and only if some member
has acknowledged and no index above 0 is acknowledged by enough members for one of the two counts,
half of those that answered and half of the cluster, and not for the other.
`src/enclave/raft.cpp:79–89`. -/
theorem largestMajorityIndex_isGreatest_iff (p : Peer) (members : Finset Uid)
    (others : ∀ q ∈ p.indices, q ∈ members) (size : 2 ≤ members.card + 1) :
    (∃ index, p.largestMajorityIndex = .ok index ∧
      IsGreatest {i | p.Majority members i} index) ↔
    1 ≤ p.indices.size ∧ ∀ i, 0 < i →
      (p.indices.size / 2 + 1 ≤ p.acknowledging members i ↔
        (members.card + 1) / 2 ≤ p.acknowledging members i) := by
  have hset : {i | p.Majority members i} =
      {i | (members.card + 1) / 2 ≤ reach members (fun m ↦ p.indices.getD m 0) i} := by
    ext i
    exact Nat.lt_succ_iff
  rw [hset]
  constructor
  · rintro ⟨index, hindex, greatest⟩
    rw [isGreatest_reach_iff] at greatest
    have answered : 1 ≤ p.indices.size := by
      by_contra none
      rw [largestMajorityIndex_eq_error (by omega)] at hindex
      exact nomatch hindex
    obtain ⟨returned, hreturned, spec⟩ := largestMajorityIndex_spec answered
    obtain rfl : returned = index := Except.ok.inj (hreturned.symm.trans hindex)
    refine ⟨answered, fun i pos ↦ ?_⟩
    rw [← countP_indices others pos, ← spec i, countP_indices others pos]
    exact (greatest i).symm
  · rintro ⟨answered, agree⟩
    obtain ⟨index, hindex, spec⟩ := largestMajorityIndex_spec answered
    refine ⟨index, hindex, (isGreatest_reach_iff _ _).mpr fun i ↦ ?_⟩
    rcases Nat.eq_zero_or_pos i with rfl | pos
    · have hall : reach members (fun m ↦ p.indices.getD m 0) 0 = members.card := by
        unfold reach
        rw [Finset.filter_true_of_mem fun _ _ ↦ Nat.zero_le _]
      rw [hall]
      omega
    · rw [spec i, countP_indices others pos]
      exact (agree i pos).symm

/-- Three acknowledgements in a cluster of four. -/
theorem three_of_four_acknowledge :
    let p : Peer := { zero with
      indices := (((∅ : UidMap Nat).insert ⟨0, 12⟩ 5).insert ⟨0, 13⟩ 9).insert ⟨0, 14⟩ 7 }
    ∃ index, p.largestMajorityIndex = .ok index ∧
      IsGreatest {i | p.Majority {⟨0, 12⟩, ⟨0, 13⟩, ⟨0, 14⟩} i} index := by
  intro p
  have hkeys : p.indices.keys = [⟨0, 12⟩, ⟨0, 13⟩, ⟨0, 14⟩] := by decide +kernel
  have hsize : p.indices.size = 3 := by decide +kernel
  have others : ∀ q ∈ p.indices, q ∈ ({⟨0, 12⟩, ⟨0, 13⟩, ⟨0, 14⟩} : Finset Uid) := by
    intro q hq
    rw [← Std.ExtTreeMap.mem_keys, hkeys] at hq
    simpa using hq
  have agree (i : Nat) (_ : 0 < i) : p.indices.size / 2 + 1 ≤
      p.acknowledging {⟨0, 12⟩, ⟨0, 13⟩, ⟨0, 14⟩} i ↔
      4 / 2 ≤ p.acknowledging {⟨0, 12⟩, ⟨0, 13⟩, ⟨0, 14⟩} i := by
    rw [hsize]
  exact (largestMajorityIndex_isGreatest_iff p _ others (by decide)).mpr
    ⟨hsize ▸ by decide, agree⟩

/-- One acknowledgement in a cluster of five is taken for a majority. -/
theorem not_largestMajorityIndex_isGreatest : ¬ ∀ (p : Peer) (members : Finset Uid),
    (∀ q ∈ p.indices, q ∈ members) → 2 ≤ members.card + 1 →
      ∃ index, p.largestMajorityIndex = .ok index ∧
        IsGreatest {i | p.Majority members i} index := by
  intro claim
  let p : Peer := { zero with indices := (∅ : UidMap Nat).insert ⟨0, 12⟩ 7 }
  let members : Finset Uid := {⟨0, 12⟩, ⟨0, 13⟩, ⟨0, 14⟩, ⟨0, 15⟩}
  have hkeys : p.indices.keys = [⟨0, 12⟩] := by decide +kernel
  have hreturned : p.largestMajorityIndex = .ok 7 := by decide +kernel
  have hminority : ¬ p.Majority members 7 := by
    unfold Majority acknowledging reach
    decide +kernel
  obtain ⟨index, hindex, greatest⟩ := claim p members
    (fun q hq ↦ by
      rw [← Std.ExtTreeMap.mem_keys, hkeys] at hq
      simp_all [members])
    (by decide)
  obtain rfl : 7 = index := Except.ok.inj (hreturned.symm.trans hindex)
  exact hminority greatest.1

end Peer

end TrustedDcr.Enclave
