import Mathlib.Data.List.Pairwise
import Mathlib.Data.Set.BooleanAlgebra
import Mathlib.Order.CompletePartialOrder
import Mathlib.Tactic.Tauto

/-!
# Dynamic condition response graphs

Graphs over an arbitrary type of events, their markings as three sets, and the
set-level meaning of enabledness and execution. The lock set of an event holds
every event it can disable, the inform set every event whose view it can change:
`Enabled.execute` and `AgreeAt.execute` are these two facts for one execution,
`runs_of_pairwise`, `run_perm` and `agreeAt_filter` their closure over sequences.
-/

namespace TrustedDcr.Theory.Dcr

universe u
variable {E : Type u}

/-- The five relations, each as the targets of its outgoing arrows. -/
structure Graph (E : Type u) where
  conditions : E → Set E
  milestones : E → Set E
  excludes : E → Set E
  includes : E → Set E
  responses : E → Set E

/-- A marking; the events outside `excluded` are the included ones. -/
@[ext] structure Marking (E : Type u) where
  executed : Set E
  pending : Set E
  excluded : Set E

/-- Included, every included condition executed, no included milestone pending. -/
def Enabled (g : Graph E) (m : Marking E) (f : E) : Prop :=
  f ∉ m.excluded ∧
  (∀ c, f ∈ g.conditions c → c ∉ m.excluded → c ∈ m.executed) ∧
  (∀ c, f ∈ g.milestones c → c ∉ m.excluded → c ∉ m.pending)

/-- The simultaneous update of the three sets by one execution. -/
def execute (g : Graph E) (m : Marking E) (e : E) : Marking E where
  executed := insert e m.executed
  pending := (m.pending \ {e}) ∪ g.responses e
  excluded := (m.excluded ∪ g.excludes e) \ g.includes e

/-- The marking after a sequence of executions. -/
def run (g : Graph E) (m : Marking E) (s : List E) : Marking E := s.foldl (execute g) m

/-- Every event of the sequence is enabled at its turn. -/
def Runs (g : Graph E) : Marking E → List E → Prop
  | _, [] => True
  | m, e :: s => Enabled g m e ∧ Runs g (execute g m e) s

/-- Running one order after another is running their concatenation. -/
theorem run_append (g : Graph E) (m : Marking E) (s t : List E) :
    run g m (s ++ t) = run g (run g m s) t := List.foldl_append

/-- A legal order is a legal beginning and, from the marking it ends in, a legal rest. -/
theorem runs_append {g : Graph E} {m : Marking E} {s t : List E} :
    Runs g m (s ++ t) ↔ Runs g m s ∧ Runs g (run g m s) t := by
  induction s generalizing m with
  | nil => simp [Runs, run]
  | cons e s ih =>
    rw [List.cons_append, Runs, Runs, ih, and_assoc]
    rfl

/-- The events other than the executed one whose marks an execution writes. -/
def touched (g : Graph E) (e : E) : Set E := g.excludes e ∪ g.includes e ∪ g.responses e

/-- The written events and those constrained by a written one. -/
def lockSet (g : Graph E) (e : E) : Set E :=
  touched g e ∪ {f | ∃ t ∈ touched g e, f ∈ g.conditions t ∪ g.milestones t}

/-- The lock set and the events constrained by the executed one itself. -/
def informSet (g : Graph E) (e : E) : Set E := lockSet g e ∪ g.conditions e ∪ g.milestones e

/-- A written event is in the lock set. -/
theorem mem_lockSet_of_touched {g : Graph E} {e f : E} (h : f ∈ touched g e) :
    f ∈ lockSet g e := Or.inl h

/-- An event constrained by a written one is in the lock set. -/
theorem mem_lockSet_of_constraint {g : Graph E} {e t f : E} (ht : t ∈ touched g e)
    (hf : f ∈ g.conditions t ∪ g.milestones t) : f ∈ lockSet g e := Or.inr ⟨t, ht, hf⟩

/-- An execution leaves every event outside its lock set enabled. -/
theorem Enabled.execute {g : Graph E} {m : Marking E} {e f : E} (h : Enabled g m f)
    (hf : f ∉ lockSet g e) : Enabled g (execute g m e) f := by
  obtain ⟨hx, hc, hm⟩ := h
  -- a constraint of `f` is not written, so only its own execution can change its marks
  have still {c : E} (hcf : f ∈ g.conditions c ∪ g.milestones c)
      (hi : c ∉ (Dcr.execute g m e).excluded) : c ∉ m.excluded := by
    intro hcx
    refine hi ⟨Or.inl hcx, fun hin ↦ hf ?_⟩
    exact mem_lockSet_of_constraint (Or.inl (Or.inr hin)) hcf
  refine ⟨?_, ?_, ?_⟩
  · rintro ⟨hin | hin, -⟩
    · exact hx hin
    · exact hf (mem_lockSet_of_touched (Or.inl (Or.inl hin)))
  · intro c hcf hi
    exact Or.inr (hc c hcf (still (Or.inl hcf) hi))
  · rintro c hcf hi (⟨hp, -⟩ | hp)
    · exact hm c hcf (still (Or.inr hcf) hi) hp
    · exact hf (mem_lockSet_of_constraint (Or.inr hp) (Or.inr hcf))

/-- So do any number. -/
theorem Enabled.run {g : Graph E} {m : Marking E} {f : E} {s : List E} (h : Enabled g m f)
    (hf : ∀ e ∈ s, f ∉ lockSet g e) : Enabled g (run g m s) f := by
  induction s generalizing m with
  | nil => exact h
  | cons e s ih =>
    exact ih (h.execute (hf e List.mem_cons_self)) fun a ha ↦ hf a (List.mem_cons_of_mem _ ha)

/-- The events whose marks an execution writes, the executed one included. -/
def writes (g : Graph E) (e : E) : Set E := insert e (touched g e)

/-- Executions that write disjoint sets of events commute. -/
theorem execute_comm {g : Graph E} {a b : E} (h : Disjoint (writes g a) (writes g b))
    (m : Marking E) : execute g (execute g m a) b = execute g (execute g m b) a := by
  have hd {x : E} (ha : x ∈ writes g a) (hb : x ∈ writes g b) : False :=
    Set.disjoint_left.mp h ha hb
  have hra : b ∉ g.responses a := fun hr ↦
    hd (Set.mem_insert_of_mem _ (Or.inr hr)) (Set.mem_insert _ _)
  have hrb : a ∉ g.responses b := fun hr ↦
    hd (Set.mem_insert _ _) (Set.mem_insert_of_mem _ (Or.inr hr))
  ext x
  · simp only [execute, Set.mem_insert_iff]
    tauto
  · simp only [execute, Set.mem_union, Set.mem_sdiff, Set.mem_singleton_iff]
    have hxa : x ∈ g.responses a → x ≠ b := fun hr he ↦ hra (he ▸ hr)
    have hxb : x ∈ g.responses b → x ≠ a := fun hr he ↦ hrb (he ▸ hr)
    tauto
  · simp only [execute, Set.mem_union, Set.mem_sdiff]
    have hei : x ∈ g.excludes a → x ∉ g.includes b := fun hx hi ↦
      hd (Set.mem_insert_of_mem _ (Or.inl (Or.inl hx))) (Set.mem_insert_of_mem _ (Or.inl (Or.inr hi)))
    have hie : x ∈ g.excludes b → x ∉ g.includes a := fun hx hi ↦
      hd (Set.mem_insert_of_mem _ (Or.inl (Or.inr hi))) (Set.mem_insert_of_mem _ (Or.inl (Or.inl hx)))
    tauto

/-- The events an execution writes or can disable. -/
def footprint (g : Graph E) (e : E) : Set E := insert e (lockSet g e)

/-- What an event writes lies in its footprint. -/
theorem writes_subset_footprint (g : Graph E) (e : E) : writes g e ⊆ footprint g e :=
  Set.insert_subset_insert Set.subset_union_left

/-- Enabled events with disjoint footprints run in the order given. -/
theorem runs_of_pairwise {g : Graph E} {m : Marking E} {s : List E}
    (hd : s.Pairwise fun a b ↦ Disjoint (footprint g a) (footprint g b))
    (he : ∀ e ∈ s, Enabled g m e) : Runs g m s := by
  induction s generalizing m with
  | nil => trivial
  | cons e s ih =>
    obtain ⟨hes, hs⟩ := List.pairwise_cons.mp hd
    refine ⟨he e List.mem_cons_self, ih hs fun f hf ↦ ?_⟩
    refine (he f (List.mem_cons_of_mem _ hf)).execute fun hl ↦ ?_
    exact Set.disjoint_left.mp (hes f hf) (Set.mem_insert_of_mem _ hl) (Set.mem_insert _ _)

/-- Sequences of events with disjoint footprints reach one marking in every order. -/
theorem run_perm {g : Graph E} {m : Marking E} {s t : List E} (hp : s.Perm t)
    (hd : s.Pairwise fun a b ↦ Disjoint (footprint g a) (footprint g b)) :
    run g m s = run g m t := by
  refine hp.foldl_eq' (fun a ha b hb z ↦ ?_) m
  rcases eq_or_ne a b with rfl | hab
  · rfl
  · have : Std.Symm fun a b ↦ Disjoint (footprint g a) (footprint g b) := ⟨fun _ _ h ↦ h.symm⟩
    have hdis : Disjoint (footprint g a) (footprint g b) := hd.forall ha hb hab
    exact execute_comm (hdis.mono (writes_subset_footprint g a) (writes_subset_footprint g b)) z

/-- The two markings agree on everything that event `f` is and depends on. -/
structure AgreeAt (g : Graph E) (f : E) (m n : Marking E) : Prop where
  executed : f ∈ m.executed ↔ f ∈ n.executed
  pending : f ∈ m.pending ↔ f ∈ n.pending
  excluded : ∀ c, (c = f ∨ f ∈ g.conditions c ∪ g.milestones c) →
    (c ∈ m.excluded ↔ c ∈ n.excluded)
  conditions : ∀ c, f ∈ g.conditions c → (c ∈ m.executed ↔ c ∈ n.executed)
  milestones : ∀ c, f ∈ g.milestones c → (c ∈ m.pending ↔ c ∈ n.pending)

namespace AgreeAt

variable {g : Graph E} {f : E} {m n : Marking E}

/-- A marking agrees with itself. -/
theorem refl (g : Graph E) (f : E) (m : Marking E) : AgreeAt g f m m :=
  ⟨Iff.rfl, Iff.rfl, fun _ _ ↦ Iff.rfl, fun _ _ ↦ Iff.rfl, fun _ _ ↦ Iff.rfl⟩

/-- Agreement decides enabledness. -/
theorem enabled (h : AgreeAt g f m n) : Enabled g m f ↔ Enabled g n f := by
  refine and_congr (not_congr (h.excluded f (Or.inl rfl))) (and_congr ?_ ?_)
  · refine forall_congr' fun c ↦ forall_congr' fun hc ↦ ?_
    rw [h.excluded c (Or.inr (Or.inl hc)), h.conditions c hc]
  · refine forall_congr' fun c ↦ forall_congr' fun hc ↦ ?_
    rw [h.excluded c (Or.inr (Or.inr hc)), h.milestones c hc]

/-- Executing one event on both sides keeps agreement. -/
theorem execute (h : AgreeAt g f m n) (e : E) :
    AgreeAt g f (Dcr.execute g m e) (Dcr.execute g n e) where
  executed := or_congr Iff.rfl h.executed
  pending := or_congr (and_congr h.pending Iff.rfl) Iff.rfl
  excluded c hc := and_congr (or_congr (h.excluded c hc) Iff.rfl) Iff.rfl
  conditions c hc := or_congr Iff.rfl (h.conditions c hc)
  milestones c hc := or_congr (and_congr (h.milestones c hc) Iff.rfl) Iff.rfl

/-- An event that does not inform `f` can be executed on one side only. -/
theorem execute_left (h : AgreeAt g f m n) {e : E} (hne : e ≠ f) (hi : f ∉ informSet g e) :
    AgreeAt g f (Dcr.execute g m e) n := by
  have hl : f ∉ lockSet g e := fun hl ↦ hi (Or.inl (Or.inl hl))
  -- neither `f` nor a constraint of `f` is written, and `e` itself is no constraint of `f`
  have hw (c : E) (hc : c = f ∨ f ∈ g.conditions c ∪ g.milestones c) : c ∉ touched g e := by
    intro ht
    rcases hc with rfl | hc
    · exact hl (mem_lockSet_of_touched ht)
    · exact hl (mem_lockSet_of_constraint ht hc)
  have hr (c : E) (hc : c = f ∨ f ∈ g.conditions c ∪ g.milestones c) : c ∉ g.responses e :=
    fun hr ↦ hw c hc (Or.inr hr)
  refine ⟨?_, ?_, ?_, ?_, ?_⟩
  · simpa [Dcr.execute, hne.symm] using h.executed
  · simpa [Dcr.execute, hne.symm, hr f (Or.inl rfl)] using h.pending
  · intro c hc
    have hx : c ∉ g.excludes e := fun hx ↦ hw c hc (Or.inl (Or.inl hx))
    have hn : c ∉ g.includes e := fun hn ↦ hw c hc (Or.inl (Or.inr hn))
    simpa [Dcr.execute, hx, hn] using h.excluded c hc
  · intro c hc
    have hce : c ≠ e := fun he ↦ hi (Or.inl (Or.inr (he ▸ hc)))
    simpa [Dcr.execute, hce] using h.conditions c hc
  · intro c hc
    have hce : c ≠ e := fun he ↦ hi (Or.inr (he ▸ hc))
    simpa [Dcr.execute, hce, hr c (Or.inr (Or.inr hc))] using h.milestones c hc

end AgreeAt

/-- Whatever keeps `f` from being enabled in the second marking does so in the first. -/
structure Favours (g : Graph E) (f : E) (m n : Marking E) : Prop where
  excluded : ∀ c, (c = f ∨ f ∈ g.conditions c ∪ g.milestones c) →
    (c ∈ m.excluded ↔ c ∈ n.excluded)
  executed : ∀ c, f ∈ g.conditions c → c ∈ m.executed → c ∈ n.executed
  pending : ∀ c, f ∈ g.milestones c → c ∈ n.pending → c ∈ m.pending

namespace Favours

variable {g : Graph E} {f : E} {m n : Marking E}

/-- Every marking is as favourable to an event as itself. -/
theorem refl (g : Graph E) (f : E) (m : Marking E) : Favours g f m m :=
  ⟨fun _ _ ↦ Iff.rfl, fun _ _ ↦ id, fun _ _ ↦ id⟩

/-- What is enabled stays so in a marking that favours it. -/
theorem enabled (h : Favours g f m n) (he : Enabled g m f) : Enabled g n f := by
  obtain ⟨hx, hc, hm⟩ := he
  refine ⟨fun hn ↦ hx ((h.excluded f (Or.inl rfl)).mpr hn), fun c hcf hn ↦ ?_, fun c hmf hn hp ↦ ?_⟩
  · exact h.executed c hcf (hc c hcf fun hm ↦ hn ((h.excluded c (Or.inr (Or.inl hcf))).mp hm))
  · exact hm c hmf (fun hm ↦ hn ((h.excluded c (Or.inr (Or.inr hmf))).mp hm)) (h.pending c hmf hp)

/-- Executing one event on both sides keeps the favour. -/
theorem execute (h : Favours g f m n) (e : E) :
    Favours g f (Dcr.execute g m e) (Dcr.execute g n e) where
  excluded c hc := and_congr (or_congr (h.excluded c hc) Iff.rfl) Iff.rfl
  executed c hc := Or.imp_right (h.executed c hc)
  pending c hc := Or.imp_left (And.imp_left (h.pending c hc))

/-- An event that does not lock `f` can be executed on the favoured side only. -/
theorem execute_right (h : Favours g f m n) {e : E} (hl : f ∉ lockSet g e) :
    Favours g f m (Dcr.execute g n e) := by
  have hw (c : E) (hc : c = f ∨ f ∈ g.conditions c ∪ g.milestones c) : c ∉ touched g e := by
    intro ht
    rcases hc with rfl | hc
    · exact hl (mem_lockSet_of_touched ht)
    · exact hl (mem_lockSet_of_constraint ht hc)
  refine ⟨?_, ?_, ?_⟩
  · intro c hc
    have hx : c ∉ g.excludes e := fun hx ↦ hw c hc (Or.inl (Or.inl hx))
    have hi : c ∉ g.includes e := fun hi ↦ hw c hc (Or.inl (Or.inr hi))
    simpa [Dcr.execute, hx, hi] using h.excluded c hc
  · exact fun c hc hm ↦ Or.inr (h.executed c hc hm)
  · rintro c hc (⟨hp, -⟩ | hp)
    · exact h.pending c hc hp
    · exact absurd (Or.inr hp) (hw c (Or.inr (Or.inr hc)))

/-- Executions that do not lock `f` may be added anywhere. -/
theorem filter {α : Type*} (h : Favours g f m n) (event : α → E) (s : List α) (p : α → Bool)
    (hp : ∀ a ∈ s, p a = false → f ∉ lockSet g (event a)) :
    Favours g f (run g m ((s.filter p).map event)) (run g n (s.map event)) := by
  induction s generalizing m n with
  | nil => exact h
  | cons a s ih =>
    have hs : ∀ b ∈ s, p b = false → f ∉ lockSet g (event b) := fun b hb ↦
      hp b (List.mem_cons_of_mem _ hb)
    cases hpa : p a with
    | true =>
      rw [List.filter_cons_of_pos hpa]
      exact ih (h.execute (event a)) hs
    | false =>
      rw [List.filter_cons_of_neg (by simp [hpa])]
      exact ih (h.execute_right (hp a List.mem_cons_self hpa)) hs

end Favours

/-- A sequence may be cut down to the executions of `f` and those that inform it. -/
theorem agreeAt_filter {g : Graph E} {f : E} {m n : Marking E} (h : AgreeAt g f m n)
    (s : List E) (p : E → Bool) (hp : ∀ e ∈ s, p e = true ↔ e = f ∨ f ∈ informSet g e) :
    AgreeAt g f (run g m s) (run g n (s.filter p)) := by
  induction s generalizing m n with
  | nil => exact h
  | cons e s ih =>
    have hs : ∀ e ∈ s, p e = true ↔ e = f ∨ f ∈ informSet g e := fun a ha ↦
      hp a (List.mem_cons_of_mem _ ha)
    have he := hp e List.mem_cons_self
    cases hpe : p e with
    | true =>
      rw [List.filter_cons_of_pos hpe]
      exact ih (h.execute e) hs
    | false =>
      rw [List.filter_cons_of_neg (by simp [hpe])]
      have hno : ¬(e = f ∨ f ∈ informSet g e) := by simp [← he, hpe]
      exact ih (h.execute_left (fun h' ↦ hno (Or.inl h')) fun h' ↦ hno (Or.inr h')) hs

end TrustedDcr.Theory.Dcr
