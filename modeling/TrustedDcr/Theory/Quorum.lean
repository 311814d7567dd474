import Mathlib.Data.Finset.Card
import Mathlib.Data.List.Pairwise
import Mathlib.Order.UpperLower.Basic

/-!
# Values reached by a number of voters

Every voter holds a value, and reaches a value that is at most its own. The
greatest value that at least `k` voters reach is the `k`-th from above of the
sorted list of their values.
-/

namespace TrustedDcr.Theory.Quorum

/-- An element of an ascending list and the elements after it reach what the element reaches. -/
theorem le_getElem_iff {α : Type*} [LinearOrder α] {l : List α} (sorted : l.Pairwise (· ≤ ·))
    {i : Nat} (hi : i < l.length) (a : α) :
    a ≤ l[i] ↔ l.length - i ≤ l.countP (a ≤ ·) := by
  induction l generalizing i with
  | nil => exact absurd hi (Nat.not_lt_zero i)
  | cons x l ih =>
    obtain ⟨hx, hl⟩ := List.pairwise_cons.mp sorted
    have all (h : a ≤ x) : l.countP (a ≤ ·) = l.length := by
      apply List.countP_eq_length.mpr
      intro y hy
      exact decide_eq_true (h.trans (hx y hy))
    cases i with
    | zero =>
      rw [List.getElem_cons_zero, List.countP_cons, List.length_cons]
      by_cases h : a ≤ x
      · simp [h, all h]
      · have hle : l.countP (a ≤ ·) ≤ l.length := List.countP_le_length
        simp only [h, decide_false, Bool.false_eq_true, if_false, false_iff]
        omega
    | succ i =>
      have hi' : i < l.length := Nat.lt_of_succ_lt_succ hi
      rw [List.getElem_cons_succ, ih hl hi', List.countP_cons, List.length_cons]
      by_cases h : a ≤ x
      · simp only [h, decide_true, if_true, all h]
        omega
      · simp only [h, decide_false, Bool.false_eq_true, if_false]
        omega

section
variable {V α : Type*} [LinearOrder α] (voters : Finset V) (value : V → α)

/-- How many voters reach a value. -/
def reach (a : α) : Nat := (voters.filter fun v ↦ a ≤ value v).card

/-- Fewer voters reach more. -/
theorem reach_antitone : Antitone (reach voters value) := fun _ _ h ↦
  Finset.card_le_card (Finset.monotone_filter_right voters fun _ _ hb ↦ h.trans hb)

/-- The greatest value that `k` voters reach, in terms of the number that reach each value. -/
theorem isGreatest_reach_iff {k : Nat} {a : α} :
    IsGreatest {b | k ≤ reach voters value b} a ↔ ∀ b, k ≤ reach voters value b ↔ b ≤ a := by
  constructor
  · intro h b
    exact ⟨fun hb ↦ h.2 hb, fun hb ↦ h.1.trans (reach_antitone voters value hb)⟩
  · intro h
    exact ⟨(h a).mpr le_rfl, fun b hb ↦ (h b).mp hb⟩

end

end TrustedDcr.Theory.Quorum
