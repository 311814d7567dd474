import Mathlib.Data.Finset.Card

/-!
# Identifiers and the maps keyed by them

`uid_t` of `src/enclave/msg.h:6–9`, its order and equality from
`src/enclave/msg_util.h:5–14` and `src/enclave/msg_utils.cpp:5–7`.
A `std::map<uid_t, V, cmp_uids>` is an extensional tree map, so iteration is in
`cmp_uids` order; the inserting `operator[]` is `getD` for the value read and
`insertIfNew` for what it leaves behind.
-/

namespace TrustedDcr.Msg

/-- `uid_t`, two 64-bit words. `src/enclave/msg.h:6–9`. -/
structure Uid where
  id1 : UInt64
  id2 : UInt64
  deriving DecidableEq, Repr

/-- `empty_uid`, the all-zero identifier. `src/enclave/msg_util.h:5`. -/
def emptyUid : Uid := ⟨0, 0⟩

/-- `cmp_uids`: lexicographic comparison. `src/enclave/msg_util.h:7–14`. -/
def cmpUids (lhs rhs : Uid) : Bool :=
  if lhs.id1 == rhs.id1 then lhs.id2 < rhs.id2 else lhs.id1 < rhs.id1

/-- `uids_equal`. `src/enclave/msg_utils.cpp:5–7`. -/
def uidsEqual (lhs rhs : Uid) : Bool := lhs.id1 == rhs.id1 && lhs.id2 == rhs.id2

/-- Comparing both words decides equality of identifiers. -/
@[simp] theorem uidsEqual_iff (lhs rhs : Uid) : uidsEqual lhs rhs = true ↔ lhs = rhs := by
  cases lhs
  cases rhs
  simp [uidsEqual]

/-- `uids_equal` is false exactly on different uids. -/
theorem uidsEqual_eq_false (lhs rhs : Uid) : uidsEqual lhs rhs = false ↔ lhs ≠ rhs := by
  rw [Bool.eq_false_iff, Ne, uidsEqual_iff]

/-- `uids_equal` holds of a uid and itself. -/
@[simp] theorem uidsEqual_self (u : Uid) : uidsEqual u u = true := (uidsEqual_iff u u).mpr rfl

/-- Map keys are ordered by `cmp_uids`; two that are not in order either way are the same. -/
instance : Ord Uid :=
  ⟨fun lhs rhs ↦ if cmpUids lhs rhs then .lt else if cmpUids rhs lhs then .gt else .eq⟩

/-- The first words come first. -/
theorem cmpUids_iff (lhs rhs : Uid) : cmpUids lhs rhs = true ↔
    compareLex (compareOn Uid.id1) (compareOn Uid.id2) lhs rhs = .lt := by
  unfold cmpUids compareLex compareOn
  by_cases h : lhs.id1 = rhs.id1
  · have hc : compare lhs.id1 rhs.id1 = .eq := Std.LawfulEqCmp.compare_eq_iff_eq.mpr h
    rw [hc, Ordering.eq_then]
    simp [h, Std.compare_eq_lt]
  · have hc : compare lhs.id1 rhs.id1 ≠ .eq := fun he ↦
      h (Std.LawfulEqCmp.compare_eq_iff_eq.mp he)
    simp only [h, beq_iff_eq, ite_false, decide_eq_true_eq, Ordering.then_eq_lt, hc, false_and,
      or_false, Std.compare_eq_lt]

private theorem compare_eq_compareLex :
    (compare : Uid → Uid → Ordering) = compareLex (compareOn Uid.id1) (compareOn Uid.id2) := by
  funext lhs rhs
  change (if cmpUids lhs rhs then Ordering.lt else if cmpUids rhs lhs then .gt else .eq) = _
  cases h : compareLex (compareOn Uid.id1) (compareOn Uid.id2) lhs rhs with
  | lt => rw [if_pos ((cmpUids_iff lhs rhs).mpr h)]
  | gt =>
    have swapped := Std.OrientedCmp.gt_iff_lt.mp h
    rw [if_neg (by simp [cmpUids_iff, h]), if_pos ((cmpUids_iff rhs lhs).mpr swapped)]
  | eq =>
    have swapped := Std.OrientedCmp.eq_symm h
    rw [if_neg (by simp [cmpUids_iff, h]), if_neg (by simp [cmpUids_iff, swapped])]

instance : Std.TransOrd Uid := by
  have lex : Std.TransCmp (compareLex (compareOn Uid.id1) (compareOn Uid.id2)) := inferInstance
  rwa [← compare_eq_compareLex] at lex

instance : Std.LawfulEqOrd Uid where
  eq_of_compare {lhs rhs} h := by
    rw [compare_eq_compareLex] at h
    cases lhs
    cases rhs
    have hw := Ordering.then_eq_eq.mp h
    simp only [compareOn, Std.LawfulEqCmp.compare_eq_iff_eq] at hw
    rw [hw.1, hw.2]

/-- Pairs of identifiers are compared as lawfully as identifiers. -/
instance : LawfulBEq (Uid × Uid) := inferInstance

/-- `std::map<uid_t, V, cmp_uids>`. -/
abbrev UidMap (V : Type) := Std.ExtTreeMap Uid V

/-- `std::set<uid_t, cmp_uids>`. -/
abbrev UidSet := Std.ExtTreeSet Uid

/-- Insertion at one key changes the value read at that key only. -/
@[simp] theorem getD_insert_uid {V : Type} (m : UidMap V) (k a : Uid) (v d : V) :
    (m.insert k v).getD a d = if k = a then v else m.getD a d := by
  rw [Std.ExtTreeMap.getD_insert]
  simp only [Std.LawfulEqCmp.compare_eq_iff_eq]

/-- The value at a key after an insertion, with the key comparison as an equation. -/
theorem getElem?_insert_uid {V : Type} (m : UidMap V) (k a : Uid) (v : V) :
    (m.insert k v)[a]? = if k = a then some v else m[a]? := by
  rw [Std.ExtTreeMap.getElem?_insert]
  simp only [Std.LawfulEqCmp.compare_eq_iff_eq]

/-- The value at a key after an erasure. -/
theorem getElem?_erase_uid {V : Type} (m : UidMap V) (k a : Uid) :
    (m.erase k)[a]? = if k = a then none else m[a]? := by
  rw [Std.ExtTreeMap.getElem?_erase]
  simp only [Std.LawfulEqCmp.compare_eq_iff_eq]

/-- Membership after an insertion, with the key comparison as an equation. -/
@[simp] theorem mem_insert_uid {V : Type} (m : UidMap V) (k a : Uid) (v : V) :
    a ∈ m.insert k v ↔ k = a ∨ a ∈ m := by
  rw [Std.ExtTreeMap.mem_insert, Std.LawfulEqCmp.compare_eq_iff_eq]

/-- Membership after a range insertion into a set. -/
@[simp] theorem mem_insertMany_uid (s : UidSet) (l : List Uid) (a : Uid) :
    a ∈ s.insertMany l ↔ a ∈ s ∨ a ∈ l := by
  rw [Std.ExtTreeSet.mem_insertMany_list, List.contains_iff_mem]

/-- Membership after inserting one element into a set. -/
@[simp] theorem mem_set_insert_uid (s : UidSet) (k a : Uid) : a ∈ s.insert k ↔ k = a ∨ a ∈ s := by
  rw [Std.ExtTreeSet.mem_insert, Std.LawfulEqCmp.compare_eq_iff_eq]

end TrustedDcr.Msg
