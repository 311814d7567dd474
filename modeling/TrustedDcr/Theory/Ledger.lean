import Mathlib.Data.List.Induction
import Mathlib.Data.List.Nodup
import Mathlib.Data.List.Perm.Subperm
import TrustedDcr.Theory.DcrGraph

/-!
# Executions of a DCR graph recorded in one ledger per event

Every event keeps a ledger of the locks and executions it has been told of, and
an order lists all executions as their own events record them. `Fits` says when a
note may be written; as long as every note fits, the order is a run of the graph
and agrees with every ledger (`Serial.extend`). An execution may be missing from a
ledger for a while: if it locks the event it cannot be, and if it does not it
cannot disable it (`Favours.filter`).
-/

namespace TrustedDcr.Theory.Dcr

universe u v
variable {E : Type u} {K : Type v}

/-- A note in a ledger: an attempt of an event locks or executes. -/
inductive Note (E : Type u) (K : Type v) where
  | lock (x : E × K)
  | exec (x : E × K)
  deriving DecidableEq

/-- The execution that is noted, if it is one. -/
def Note.execution : Note E K → Option (E × K)
  | .lock _ => none
  | .exec x => some x

/-- The executions noted in a ledger. -/
def execs (l : List (Note E K)) : List (E × K) := l.filterMap Note.execution

/-- The executions of a list of notes are those noted as such. -/
theorem mem_execs {l : List (Note E K)} {x : E × K} : x ∈ execs l ↔ .exec x ∈ l := by
  unfold execs
  rw [List.mem_filterMap]
  constructor
  · rintro ⟨n, hn, hx⟩
    cases n with
    | lock => exact nomatch hx
    | exec y =>
      obtain rfl := Option.some.inj hx
      exact hn
  · exact fun hx ↦ ⟨_, hx, rfl⟩

/-- The executions of two lists in a row are those of each in turn. -/
@[simp] theorem execs_append (l l' : List (Note E K)) : execs (l ++ l') = execs l ++ execs l' :=
  List.filterMap_append

/-- A lock is no execution. -/
@[simp] theorem execs_lock (x : E × K) : execs [.lock x] = [] := rfl

/-- An execution noted is an execution. -/
@[simp] theorem execs_exec (x : E × K) : execs [.exec x] = [x] := rfl

/-- A beginning of a list has a part of its executions, in their order. -/
theorem execs_sublist {l l' : List (Note E K)} (h : l <+: l') : (execs l).Sublist (execs l') :=
  h.sublist.filterMap _

/-- Every attempt that locks executes. -/
def Settled (l : List (Note E K)) : Prop := ∀ x, .lock x ∈ l → .exec x ∈ l

/-- The event is enabled after the executions noted. -/
def EnabledAfter (g : Graph E) (m : Marking E) (l : List (Note E K)) (y : E) : Prop :=
  Enabled g (run g m ((execs l).map Prod.fst)) y

/-- Executions that do not lock the event leave it enabled. -/
theorem EnabledAfter.append {g : Graph E} {m : Marking E} {l r : List (Note E K)} {y : E}
    (h : EnabledAfter g m l y) (hr : ∀ x ∈ execs r, y ∉ lockSet g x.1) :
    EnabledAfter g m (l ++ r) y := by
  unfold EnabledAfter
  rw [execs_append, List.map_append, run_append]
  refine h.run fun e he ↦ ?_
  obtain ⟨x, hx, rfl⟩ := List.mem_map.mp he
  exact hr x hx

/-- All ledgers, and all executions in the order in which their own events noted them. -/
structure Book (E : Type u) (K : Type v) where
  ledger : E → List (Note E K)
  order : List (E × K)

namespace Book

/-- Nothing is noted. -/
def empty : Book E K := ⟨fun _ ↦ [], []⟩

/-- More is noted. -/
structure Below (b b' : Book E K) : Prop where
  ledger : ∀ y, b.ledger y <+: b'.ledger y
  order : b.order <+: b'.order

variable [DecidableEq E]

/-- More notes in the ledger of `y`; the executions of `y` itself join the order. -/
def extend (b : Book E K) (y : E) (ns : List (Note E K)) : Book E K where
  ledger := Function.update b.ledger y (b.ledger y ++ ns)
  order := b.order ++ (execs ns).filter (·.1 = y)

/-- An extended ledger ends in the new notes. -/
theorem ledger_extend (b : Book E K) (y : E) (ns : List (Note E K)) :
    (b.extend y ns).ledger y = b.ledger y ++ ns := Function.update_self _ _ _

/-- Extending one ledger leaves the others as they are. -/
theorem ledger_extend_of_ne (b : Book E K) {y z : E} (hz : z ≠ y) (ns : List (Note E K)) :
    (b.extend y ns).ledger z = b.ledger z := Function.update_of_ne hz _ _

/-- No notes are no change. -/
theorem extend_nil (b : Book E K) (y : E) : b.extend y [] = b := by
  simp [extend, execs]

/-- Extending twice is extending by both in a row. -/
theorem extend_append (b : Book E K) (y : E) (ns ns' : List (Note E K)) :
    b.extend y (ns ++ ns') = (b.extend y ns).extend y ns' := by
  simp [extend]

/-- An extended book has all the old one had. -/
theorem below_extend (b : Book E K) (y : E) (ns : List (Note E K)) : b.Below (b.extend y ns) := by
  refine ⟨fun z ↦ ?_, List.prefix_append _ _⟩
  rcases eq_or_ne z y with rfl | hz
  · rw [ledger_extend]
    exact List.prefix_append _ _
  · exact (b.ledger_extend_of_ne hz ns).symm ▸ List.prefix_rfl

/-- The execution of an event is in its ledger when it was, or is the new note. -/
theorem exec_mem_extend {b : Book E K} {y : E} {n : Note E K} {x : E × K} :
    .exec x ∈ (b.extend y [n]).ledger x.1 ↔ .exec x ∈ b.ledger x.1 ∨ n = .exec x ∧ x.1 = y := by
  by_cases hy : x.1 = y
  · subst hy
    simp [ledger_extend, eq_comm]
  · simp [ledger_extend_of_ne b hy, hy]

/-- The order gains the new note when it is an execution of the event itself. -/
theorem mem_order_extend {b : Book E K} {y : E} {n : Note E K} {x : E × K} :
    x ∈ (b.extend y [n]).order ↔ x ∈ b.order ∨ n = .exec x ∧ x.1 = y := by
  cases n with
  | lock x' => simp [extend]
  | exec x' =>
    simp only [extend, execs_exec, List.mem_append, List.mem_filter, List.mem_singleton,
      decide_eq_true_eq, Note.exec.injEq, eq_comm (a := x)]

end Book

/-- The note may follow `l` in a ledger of `y`.

A lock waits until the last one is settled, and an event locks itself only when it
is enabled. It executes once it has locked itself and all that it locks, or at
once if it locks nothing. Other executions follow those that happened earlier. -/
inductive Fits (g : Graph E) (m : Marking E) (b : Book E K) (y : E) (l : List (Note E K)) :
    Note E K → Prop
  | lock {x : E × K} (settled : Settled l) (enabled : x.1 = y → EnabledAfter g m l y) :
      Fits g m b y l (.lock x)
  | locked {k : K} (fresh : .exec (y, k) ∉ l) (own : .lock (y, k) ∈ l)
      (locks : ∀ z ∈ lockSet g y, .lock (y, k) ∈ b.ledger z) : Fits g m b y l (.exec (y, k))
  | free {k : K} (fresh : .exec (y, k) ∉ l) (settled : Settled l) (enabled : EnabledAfter g m l y)
      (free : lockSet g y = ∅) : Fits g m b y l (.exec (y, k))
  | informed {x : E × K} (foreign : x.1 ≠ y) (inOrder : (execs l ++ [x]).Sublist b.order) :
      Fits g m b y l (.exec x)

section
variable {g : Graph E} {m : Marking E} {b b' : Book E K} {y : E} {l : List (Note E K)}
  {n : Note E K}

/-- What fits still does when more is noted elsewhere. -/
theorem Fits.mono (h : Fits g m b y l n) (hb : b.Below b') : Fits g m b' y l n := by
  cases h with
  | lock settled enabled => exact .lock settled enabled
  | locked fresh own locks => exact .locked fresh own fun z hz ↦ (hb.ledger z).subset (locks z hz)
  | free fresh settled enabled free => exact .free fresh settled enabled free
  | informed foreign inOrder => exact .informed foreign (inOrder.trans hb.order.sublist)

/-- An execution that fits is not noted yet where its own event notes it. -/
theorem Fits.fresh {k : K} (h : Fits g m b y l (.exec (y, k))) : .exec (y, k) ∉ l := by
  cases h with
  | locked fresh own locks => exact fresh
  | free fresh settled enabled free => exact fresh
  | informed foreign inOrder => exact absurd rfl foreign

/-- Every note fitted when it was written. -/
def Orderly (g : Graph E) (m : Marking E) (b : Book E K) (y : E) (ledger : List (Note E K)) : Prop :=
  ∀ l n, l ++ [n] <+: ledger → Fits g m b y l n

/-- A ledger with no notes is orderly. -/
theorem Orderly.nil : Orderly g m b y [] := by
  intro l n h
  exact absurd (List.prefix_nil.mp h) (by simp)

/-- What is orderly in a book stays so as the book grows. -/
theorem Orderly.mono (h : Orderly g m b y l) (hb : b.Below b') : Orderly g m b' y l :=
  fun k n hk ↦ (h k n hk).mono hb

/-- A beginning of an orderly ledger is orderly. -/
theorem Orderly.of_isPrefix {l' : List (Note E K)} (hp : l' <+: l) (h : Orderly g m b y l) :
    Orderly g m b y l' := fun k n hk ↦ h k n (hk.trans hp)

/-- A member of a list follows some of its prefixes. -/
theorem exists_concat_isPrefix {α : Type*} {l : List α} {a : α} (h : a ∈ l) :
    ∃ k, k ++ [a] <+: l := by
  obtain ⟨k, r, rfl⟩ := List.append_of_mem h
  exact ⟨k, r, by simp⟩

/-- Executions in a ledger are of its own event, or in the order. -/
theorem Orderly.exec_cases (h : Orderly g m b y l) {x : E × K} (hx : .exec x ∈ l) :
    x.1 = y ∨ x ∈ b.order := by
  obtain ⟨k, hk⟩ := exists_concat_isPrefix hx
  cases h k _ hk with
  | locked | free => exact Or.inl rfl
  | informed foreign inOrder => exact Or.inr (inOrder.subset (by simp))

/-- An orderly ledger takes any note that fits it. -/
theorem Orderly.append (h : Orderly g m b y l) (hn : Fits g m b y l n) :
    Orderly g m b y (l ++ [n]) := by
  intro k n' hk
  rcases List.prefix_concat_iff.mp hk with heq | hk
  · obtain ⟨rfl, hn'⟩ := List.append_inj' heq rfl
    obtain rfl := List.singleton_inj.mp hn'
    exact hn
  · exact h k n' hk

/-- A list without repetition, cut down to the members of a sublist, is the sublist. -/
theorem filter_members {α : Type*} {l s : List α} (h : l.Sublist s) (hs : s.Nodup) {p : α → Bool}
    (hp : ∀ a, p a = true ↔ a ∈ l) : s.filter p = l := by
  have hsub := h.filter p
  rw [List.filter_eq_self.mpr fun a ha ↦ (hp a).mpr ha] at hsub
  have hle : (s.filter p).length ≤ l.length :=
    (List.subperm_of_subset (hs.filter _) fun a ha ↦ (hp a).mp (List.mem_filter.mp ha).2).length_le
  exact (hsub.eq_of_length_le hle).symm

/-- The order is a run of the graph and agrees with every ledger. -/
structure Serial [DecidableEq E] (g : Graph E) (m : Marking E) (b : Book E K) : Prop where
  orderly : ∀ y, Orderly g m b y (b.ledger y)
  mem_order : ∀ x, x ∈ b.order ↔ .exec x ∈ b.ledger x.1
  nodup : b.order.Nodup
  consistent : ∀ y, (execs (b.ledger y)).Sublist b.order
  legal : Runs g m (b.order.map Prod.fst)

namespace Serial
variable [DecidableEq E]

/-- The empty book has the empty order. -/
theorem empty : Serial g m (Book.empty : Book E K) where
  orderly _ := Orderly.nil
  mem_order x := by simp [Book.empty]
  nodup := List.nodup_nil
  consistent _ := List.Sublist.refl _
  legal := trivial

/-- An event that has executed has locked all that it locks. -/
theorem locks (h : Serial g m b) {x : E × K} (hx : x ∈ b.order) {z : E}
    (hz : z ∈ lockSet g x.1) : .lock x ∈ b.ledger z := by
  obtain ⟨l, hl⟩ := exists_concat_isPrefix ((h.mem_order x).mp hx)
  have hf := h.orderly x.1 l _ hl
  generalize hy : x.1 = y at hf hz
  cases hf with
  | locked fresh own locks => exact locks z hz
  | free fresh settled enabled free =>
    rw [free] at hz
    exact absurd hz (Set.notMem_empty z)
  | informed foreign inOrder => exact absurd hy foreign

/-- When an attempt may execute, its event was enabled at a point of its ledger by which all that
lock the event and have executed were noted. -/
theorem opened (h : Serial g m b) {k : K} (hf : Fits g m b y (b.ledger y) (.exec (y, k))) :
    ∃ l, l <+: b.ledger y ∧ EnabledAfter g m l y ∧
      ∀ x ∈ b.order, .lock x ∈ b.ledger y → .exec x ∈ l := by
  cases hf with
  | locked fresh own locks =>
    obtain ⟨l, r, hr⟩ := exists_concat_isPrefix own
    cases h.orderly y l _ ⟨r, hr⟩ with
    | lock settled enabled =>
      refine ⟨l, ⟨_, (List.append_assoc _ _ _).symm.trans hr⟩, enabled rfl, fun x hx hlock ↦ ?_⟩
      rw [← hr, List.mem_append, List.mem_append] at hlock
      rcases hlock with (hlock | hlock) | hlock
      · exact settled x hlock
      · obtain rfl : x = (y, k) := by
          have he := List.mem_singleton.mp hlock
          injection he
        exact absurd ((h.mem_order _).mp hx) fresh
      -- a lock after that of the attempt waited until the attempt had executed
      · obtain ⟨l', r', hr'⟩ := exists_concat_isPrefix hlock
        have hp : (l ++ [.lock (y, k)] ++ l') ++ [.lock x] <+: b.ledger y := by
          refine ⟨r', ?_⟩
          rw [← hr, ← hr']
          simp
        cases h.orderly y _ _ hp with
        | lock settled' _ =>
          have hexec := settled' (y, k) (by simp)
          exact absurd (((List.prefix_append _ _).trans hp).subset hexec) fresh
  | free fresh settled enabled free =>
    exact ⟨_, List.prefix_rfl, enabled, fun x _ hlock ↦ settled x hlock⟩
  | informed foreign inOrder => exact absurd rfl foreign

/-- An attempt that may execute is enabled after all executions so far. -/
theorem enabled [DecidableEq K] (h : Serial g m b) {k : K}
    (hf : Fits g m b y (b.ledger y) (.exec (y, k))) :
    Enabled g (run g m (b.order.map Prod.fst)) y := by
  obtain ⟨l, hl, henabled, hlocked⟩ := h.opened hf
  have hfav := (Favours.refl g y m).filter Prod.fst b.order (· ∈ execs l) fun x hx hnot hlock ↦ by
    refine of_decide_eq_false hnot (mem_execs.mpr (hlocked x hx (h.locks hx hlock)))
  rw [filter_members ((execs_sublist hl).trans (h.consistent y)) h.nodup
    fun _ ↦ decide_eq_true_iff] at hfav
  exact hfav.enabled henabled

/-- A note that fits keeps the order a run that agrees with every ledger. -/
theorem note [DecidableEq K] (h : Serial g m b) (hf : Fits g m b y (b.ledger y) n) :
    Serial g m (b.extend y [n]) := by
  have hb := b.below_extend y [n]
  constructor
  case orderly =>
    intro z
    rcases eq_or_ne z y with rfl | hz
    · rw [b.ledger_extend]
      exact ((h.orderly z).append hf).mono hb
    · rw [b.ledger_extend_of_ne hz]
      exact (h.orderly z).mono hb
  case mem_order =>
    intro x
    rw [Book.exec_mem_extend, Book.mem_order_extend, h.mem_order x]
  case nodup =>
    cases n with
    | lock x => simpa [Book.extend] using h.nodup
    | exec x =>
      obtain ⟨z, k⟩ := x
      by_cases hz : z = y
      · subst hz
        have hk : (z, k) ∉ b.order := fun hx ↦ hf.fresh ((h.mem_order _).mp hx)
        simpa [Book.extend, List.concat_eq_append] using List.Nodup.concat hk h.nodup
      · simpa [Book.extend, hz] using h.nodup
  case consistent =>
    intro z
    rcases eq_or_ne z y with rfl | hz
    · rw [b.ledger_extend, execs_append]
      cases hf with
      | lock =>
        rw [execs_lock, List.append_nil]
        exact (h.consistent z).trans hb.order.sublist
      | locked | free =>
        refine (h.consistent z).append ?_
        simp
      | informed foreign inOrder => exact inOrder.trans hb.order.sublist
    · rw [b.ledger_extend_of_ne hz]
      exact (h.consistent z).trans hb.order.sublist
  case legal =>
    change Runs g m ((b.order ++ (execs [n]).filter (·.1 = y)).map Prod.fst)
    rw [List.map_append, runs_append]
    refine ⟨h.legal, ?_⟩
    cases n with
    | lock x => trivial
    | exec x =>
      obtain ⟨z, k⟩ := x
      by_cases hz : z = y
      · subst hz
        simpa [Runs] using h.enabled hf
      · simp [hz, Runs]

/-- So do several. -/
theorem extend [DecidableEq K] (h : Serial g m b) {ns : List (Note E K)}
    (orderly : Orderly g m b y (b.ledger y ++ ns)) : Serial g m (b.extend y ns) := by
  induction ns using List.reverseRecOn with
  | nil => rwa [b.extend_nil]
  | append_singleton ns n ih =>
    rw [← List.append_assoc] at orderly
    rw [b.extend_append]
    refine (ih (orderly.of_isPrefix (List.prefix_append _ _))).note ?_
    rw [b.ledger_extend]
    exact (orderly _ n List.prefix_rfl).mono (b.below_extend y ns)

end Serial

end

end TrustedDcr.Theory.Dcr
