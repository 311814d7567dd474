import TrustedDcr.Theory.Ledger

/-!
# The ledgers of a lossless history

When nothing is lost, every execution leaves the same notes with an event: a lock
with those it locks, and itself with those it informs. An event is enabled after
the notes of its own ledger exactly when it is after the whole order.
-/

namespace TrustedDcr.Theory.Dcr

universe u v
variable {E : Type u} {K : Type v}

open Classical in
/-- What an execution leaves in the ledger of `y`; an event that locks nothing does not lock itself. -/
noncomputable def record (g : Graph E) (y : E) (x : E × K) : List (Note E K) :=
  (if y ∈ lockSet g x.1 ∨ x.1 = y ∧ (lockSet g x.1).Nonempty then [.lock x] else []) ++
    if x.1 = y ∨ y ∈ informSet g x.1 then [.exec x] else []

/-- What an order of executions leaves there. -/
noncomputable def records (g : Graph E) (y : E) (order : List (E × K)) : List (Note E K) :=
  order.flatMap (record g y)

/-- Every lock is followed by the execution of its attempt. -/
def Resolved (l : List (Note E K)) : Prop := ∀ k x r, l = k ++ .lock x :: r → .exec x ∈ r

section
variable {g : Graph E} {y : E} {order : List (E × K)} {x : E × K}

/-- The last execution of an order is recorded last. -/
theorem records_concat : records g y (order ++ [x]) = records g y order ++ record g y x := by
  simp [records]

/-- The record of an execution holds nothing but its lock and the execution. -/
theorem mem_record {n : Note E K} (h : n ∈ record g y x) : n = .lock x ∨ n = .exec x := by
  unfold record at h
  rcases List.mem_append.mp h with h | h <;> split at h <;> simp_all

/-- Only what is in the order is noted. -/
theorem mem_records {n : Note E K} (h : n ∈ records g y order) :
    ∃ x ∈ order, n = .lock x ∨ n = .exec x := by
  obtain ⟨x, hx, hn⟩ := List.mem_flatMap.mp h
  exact ⟨x, hx, mem_record hn⟩

/-- Only executions of the order are recorded as locks. -/
theorem lock_mem_records (h : .lock x ∈ records g y order) : x ∈ order := by
  obtain ⟨z, hz, eq | eq⟩ := mem_records h
  · exact Note.lock.inj eq ▸ hz
  · exact nomatch eq

/-- Only executions of the order are recorded as executions. -/
theorem exec_mem_records (h : .exec x ∈ records g y order) : x ∈ order := by
  obtain ⟨z, hz, eq | eq⟩ := mem_records h
  · exact nomatch eq
  · exact Note.exec.inj eq ▸ hz

/-- Who is locked is informed. -/
theorem informed_of_locked (h : y ∈ lockSet g x.1 ∨ x.1 = y ∧ (lockSet g x.1).Nonempty) :
    x.1 = y ∨ y ∈ informSet g x.1 :=
  h.elim (fun h ↦ Or.inr (Or.inl (Or.inl h))) fun h ↦ Or.inl h.1

/-- With no locks none is held. -/
theorem Resolved.nil : Resolved ([] : List (Note E K)) := by
  intro k x r h
  exact absurd h (by simp)

/-- Two resolved lists are resolved in a row. -/
theorem Resolved.append {l l' : List (Note E K)} (h : Resolved l) (h' : Resolved l') :
    Resolved (l ++ l') := by
  intro k x r eq
  rcases List.append_eq_append_iff.mp eq with ⟨a, rfl, rfl⟩ | ⟨a, rfl, ha⟩
  · exact h' a x r rfl
  · cases a with
    | nil => exact h' [] x r ha.symm
    | cons n a =>
      obtain ⟨rfl, rfl⟩ := List.cons_eq_cons.mp ha
      exact List.mem_append_left _ (h k x a rfl)

/-- The record of one execution resolves its own lock. -/
theorem resolved_record : Resolved (record g y x) := by
  intro k z r h
  have hz : .lock z ∈ record g y x := h ▸ by simp
  unfold record at h hz
  by_cases locked : y ∈ lockSet g x.1 ∨ x.1 = y ∧ (lockSet g x.1).Nonempty
  · rw [if_pos locked, if_pos (informed_of_locked locked)] at h
    cases k with
    | nil =>
      obtain ⟨hz, rfl⟩ := List.cons_eq_cons.mp h
      obtain rfl := Note.lock.inj hz
      exact List.mem_singleton_self _
    | cons n k =>
      obtain ⟨-, h⟩ := List.cons_eq_cons.mp h
      cases k <;> simp_all
  · rw [if_neg locked] at hz
    split at hz <;> simp at hz

/-- The records of an order resolve all their locks. -/
theorem resolved_records : Resolved (records g y order) := by
  induction order with
  | nil => exact Resolved.nil
  | cons x order ih => exact resolved_record.append ih

/-- A ledger in which every lock is resolved is settled. -/
theorem Resolved.settled {l : List (Note E K)} (h : Resolved l) : Settled l := by
  intro x hx
  obtain ⟨k, r, rfl⟩ := List.append_of_mem hx
  exact List.mem_append_right _ (List.mem_cons_of_mem _ (h k x r rfl))

open Classical in

/-- An execution is recorded as such at its own event and at those it informs. -/
theorem execs_record :
    execs (record g y x) = if x.1 = y ∨ y ∈ informSet g x.1 then [x] else [] := by
  unfold record
  rw [execs_append]
  split <;> split <;> rfl

open Classical in
/-- The executions noted are those the event is told of. -/
theorem execs_records : execs (records g y order) =
    order.filter fun x ↦ x.1 = y ∨ y ∈ informSet g x.1 := by
  induction order with
  | nil => rfl
  | cons x order ih =>
    change execs (record g y x ++ records g y order) = _
    rw [execs_append, ih, execs_record]
    by_cases told : x.1 = y ∨ y ∈ informSet g x.1
    · rw [if_pos told, List.filter_cons_of_pos (by simpa using told)]
      rfl
    · rw [if_neg told, List.filter_cons_of_neg (by simpa using told)]
      rfl

/-- Each event records its share of the order's executions, in the order's own order. -/
theorem execs_records_sublist : (execs (records g y order)).Sublist order := by
  classical
  rw [execs_records]
  exact List.filter_sublist

/-- An event is enabled after its own ledger exactly when it is after the whole order. -/
theorem enabledAfter_records {m : Marking E} : EnabledAfter g m (records g y order) y ↔
    Enabled g (run g m (order.map Prod.fst)) y := by
  classical
  unfold EnabledAfter
  rw [execs_records, show (fun x : E × K ↦ decide (x.1 = y ∨ y ∈ informSet g x.1)) =
      (fun e ↦ decide (e = y ∨ y ∈ informSet g e)) ∘ Prod.fst from rfl, ← List.filter_map]
  exact (agreeAt_filter (AgreeAt.refl g y m) (order.map Prod.fst) _ fun e _ ↦
    decide_eq_true_iff).enabled.symm

/-! ### Noting an execution in several ledgers -/

open Classical in
/-- The ledgers with a note for the events of a set. -/
noncomputable def noted (l : E → List (Note E K)) (n : Note E K) (S : Set E) (y : E) :
    List (Note E K) := if y ∈ S then l y ++ [n] else l y

variable {l : E → List (Note E K)} {n : Note E K} {S : Set E}

/-- An event of the set gets the note. -/
theorem noted_of_mem (h : y ∈ S) : noted l n S y = l y ++ [n] := if_pos h

/-- An event outside the set gets none. -/
theorem noted_of_notMem (h : y ∉ S) : noted l n S y = l y := if_neg h

open Classical in

/-- What an event has after a note is sent to a set. -/
theorem noted_eq : noted l n S y = l y ++ if y ∈ S then [n] else [] := by
  unfold noted
  split
  · rfl
  · rw [List.append_nil]

/-- A note sent to nobody changes nothing. -/
@[simp] theorem noted_empty : noted l n ∅ = l := funext fun y ↦ noted_of_notMem (Set.notMem_empty y)

/-- One more event notes it. -/
theorem noted_insert [DecidableEq E] (h : y ∉ S) :
    noted l n (insert y S) = Function.update (noted l n S) y (noted l n S y ++ [n]) := by
  funext z
  rcases eq_or_ne z y with rfl | hne
  · rw [Function.update_self, noted_of_mem (Set.mem_insert z S), noted_of_notMem h]
  · rw [Function.update_of_ne hne]
    by_cases hz : z ∈ S
    · rw [noted_of_mem hz, noted_of_mem (Set.mem_insert_of_mem y hz)]
    · rw [noted_of_notMem hz, noted_of_notMem (by simp [hne, hz])]

/-- A lock is no execution. -/
@[simp] theorem execs_noted_lock : execs (noted l (.lock x) S y) = execs (l y) := by
  rw [noted_eq, execs_append]
  split <;> exact List.append_nil _

/-- A note sent to one event changes its list alone. -/
theorem noted_singleton [DecidableEq E] : noted l n {y} = Function.update l y (l y ++ [n]) := by
  rw [← insert_empty_eq, noted_insert (Set.notMem_empty y), noted_empty]

/-- An execution that locks is noted by those it locks and then by those it informs. -/
theorem records_concat_of_nonempty (locks : (lockSet g x.1).Nonempty) :
    (fun y ↦ records g y (order ++ [x])) =
      noted (noted (fun y ↦ records g y order) (.lock x) (insert x.1 (lockSet g x.1))) (.exec x)
        (insert x.1 (informSet g x.1)) := by
  classical
  funext y
  have lock : (y ∈ lockSet g x.1 ∨ x.1 = y ∧ (lockSet g x.1).Nonempty) ↔
      y ∈ insert x.1 (lockSet g x.1) := by
    rw [Set.mem_insert_iff, and_iff_left locks, or_comm, eq_comm]
  have exec : (x.1 = y ∨ y ∈ informSet g x.1) ↔ y ∈ insert x.1 (informSet g x.1) := by
    rw [Set.mem_insert_iff, eq_comm]
  rw [records_concat, noted_eq, noted_eq, List.append_assoc]
  unfold record
  rw [if_congr lock rfl rfl, if_congr exec rfl rfl]
  congr

/-- One that locks and informs nobody is noted by its own event alone. -/
theorem records_concat_of_empty (informs : informSet g x.1 = ∅) :
    (fun y ↦ records g y (order ++ [x])) =
      noted (fun y ↦ records g y order) (.exec x) {x.1} := by
  have locks : lockSet g x.1 = ∅ := by
    unfold informSet at informs
    exact Set.subset_eq_empty (fun y hy ↦ Or.inl (Or.inl hy)) informs
  classical
  funext y
  have exec : (x.1 = y ∨ y ∈ informSet g x.1) ↔ y ∈ ({x.1} : Set E) := by
    rw [informs, Set.mem_singleton_iff, eq_comm, or_iff_left (Set.notMem_empty y)]
  rw [records_concat, noted_eq]
  unfold record
  rw [if_neg (by simp [locks]), List.nil_append, if_congr exec rfl rfl]
  congr

end

end TrustedDcr.Theory.Dcr
