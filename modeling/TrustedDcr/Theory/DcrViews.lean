import TrustedDcr.Theory.DcrGraph

/-!
# What an execution can change for another event

The inform set of an event is an approximation: the event a response goes to is
locked with everything it constrains, although being pending meets no condition.
`Affects` is the exact relation. An event that is not affected never sees a change,
and one that is affected sees one under some marking of the events at hand.
-/

namespace TrustedDcr.Theory.Dcr

universe u
variable {E : Type u} {g : Graph E} {m n : Marking E} {e f t : E}

/-- The two markings look the same to `f`: its own marks and whether it is enabled. -/
structure SameView (g : Graph E) (f : E) (m n : Marking E) : Prop where
  executed : f ∈ m.executed ↔ f ∈ n.executed
  pending : f ∈ m.pending ↔ f ∈ n.pending
  excluded : f ∈ m.excluded ↔ f ∈ n.excluded
  enabled : Enabled g m f ↔ Enabled g n f

/-- The marks of `f` are written, or a constraint of `f` is written in a way that matters. -/
def Affects (g : Graph E) (e f : E) : Prop :=
  f ∈ touched g e ∨ f ∈ g.conditions e ∪ g.milestones e ∨
    (∃ t ∈ g.excludes e ∪ g.includes e, f ∈ g.conditions t) ∨ ∃ t ∈ touched g e, f ∈ g.milestones t

/-- The inform set adds the events that a target of a response is a condition for. -/
theorem mem_informSet_iff : f ∈ informSet g e ↔
    Affects g e f ∨ ∃ t ∈ g.responses e, f ∈ g.conditions t := by
  unfold informSet lockSet Affects touched
  simp only [Set.mem_union, Set.mem_ofPred_eq, and_or_left, or_and_right, exists_or]
  grind

/-- An execution that does not affect `f` changes nothing for it. -/
theorem sameView_execute (ne : f ≠ e) (unaffected : ¬Affects g e f) (m : Marking E) :
    SameView g f m (execute g m e) := by
  simp only [Affects, touched, Set.mem_union, not_or, not_exists, not_and] at unaffected
  obtain ⟨⟨⟨hx, hi⟩, hr⟩, ⟨hc, hm⟩, hcond, hmile⟩ := unaffected
  have excluded (c : E) (hcx : c ∉ g.excludes e) (hci : c ∉ g.includes e) :
      c ∈ m.excluded ↔ c ∈ (execute g m e).excluded := by
    simp [execute, hcx, hci]
  refine ⟨by simp [execute, ne], by simp [execute, ne, hr], excluded f hx hi, ?_⟩
  refine and_congr (not_congr (excluded f hx hi)) (and_congr ?_ ?_)
  · refine forall_congr' fun c ↦ forall_congr' fun hcf ↦ ?_
    have hce : c ≠ e := fun he ↦ hc (he ▸ hcf)
    rw [excluded c (fun h ↦ hcond c (Or.inl h) hcf) fun h ↦ hcond c (Or.inr h) hcf]
    simp [execute, hce]
  · refine forall_congr' fun c ↦ forall_congr' fun hcf ↦ ?_
    have hce : c ≠ e := fun he ↦ hm (he ▸ hcf)
    have hcr : c ∉ g.responses e := fun h ↦ hmile c (Or.inr h) hcf
    rw [excluded c (fun h ↦ hmile c (Or.inl (Or.inl h)) hcf)
      fun h ↦ hmile c (Or.inl (Or.inr h)) hcf]
    simp [execute, hce, hcr]

/-! ### Markings that show an effect -/

/-- Only events in `D` are marked. -/
def Within (D : Set E) (m : Marking E) : Prop :=
  m.executed ⊆ D ∧ m.pending ⊆ D ∧ m.excluded ⊆ D

/-- An included milestone that is pending stands in the way. -/
theorem not_enabled_of_pending (hf : f ∈ g.milestones t) (hx : t ∉ m.excluded)
    (hp : t ∈ m.pending) : ¬Enabled g m f := fun h ↦ h.2.2 t hf hx hp

/-- So does an included condition that is not executed. -/
theorem not_enabled_of_unexecuted (hf : f ∈ g.conditions t) (hx : t ∉ m.excluded)
    (he : t ∉ m.executed) : ¬Enabled g m f := fun h ↦ he (h.2.1 t hf hx)

/-- All of `D` executed but for `u`, with `p` pending and `x` excluded. -/
def marked (D u p x : Set E) : Marking E := ⟨D \ u, p ∩ D, x ∩ D⟩

/-- Marks cut off at the declared events lie within them. -/
theorem within_marked (D u p x : Set E) : Within D (marked D u p x) :=
  ⟨Set.sdiff_subset, Set.inter_subset_right, Set.inter_subset_right⟩

/-- No target of a response that stays included is a milestone of `f`. -/
def Undisturbed (g : Graph E) (e f : E) : Prop :=
  ∀ t ∈ g.responses e, f ∈ g.milestones t → t ∈ g.excludes e \ g.includes e

section
variable {D u p x : Set E} (constraints : ∀ t, f ∈ g.conditions t ∪ g.milestones t → t ∈ D)
include constraints

/-- With its unmet constraints excluded, `f` is enabled. -/
theorem enabled_marked (included : f ∉ x) (met : ∀ t ∈ u, f ∈ g.conditions t → t ∈ x)
    (idle : ∀ t ∈ p, f ∈ g.milestones t → t ∈ x) : Enabled g (marked D u p x) f := by
  refine ⟨fun h ↦ included h.1, fun c hc hx ↦ ?_, fun c hc hx hp ↦ ?_⟩
  · have hD := constraints c (Or.inl hc)
    exact ⟨hD, fun hu ↦ hx ⟨met c hu hc, hD⟩⟩
  · exact hx ⟨idle c hp.1 hc, hp.2⟩

/-- An execution that leaves `f` alone enables it when it removes the one obstacle. -/
theorem enabled_execute_marked (untouched : f ∉ touched g e) (calm : Undisturbed g e f)
    (met : ∀ t ∈ u, f ∈ g.conditions t → t = e ∨ t ∈ g.excludes e \ g.includes e)
    (idle : ∀ t ∈ p, f ∈ g.milestones t → t = e ∨ t ∈ g.excludes e \ g.includes e) :
    Enabled g (execute g (marked D u p ∅) e) f := by
  have excluded {c : E} (hc : c ∈ g.excludes e \ g.includes e) :
      c ∈ (execute g (marked D u p ∅) e).excluded := ⟨Or.inr hc.1, hc.2⟩
  refine ⟨?_, fun c hc hx ↦ ?_, fun c hc hx hp ↦ ?_⟩
  · rintro ⟨h | h, -⟩
    · exact h.1
    · exact untouched (Or.inl (Or.inl h))
  · by_cases hu : c ∈ u
    · exact (met c hu hc).elim Or.inl fun h ↦ absurd (excluded h) hx
    · exact Or.inr ⟨constraints c (Or.inl hc), hu⟩
  · obtain ⟨⟨hp, -⟩, hce⟩ | hr := hp
    · exact (idle c hp hc).elim hce fun h ↦ hx (excluded h)
    · exact hx (excluded (calm c hr hc))

/-- A constraint that the execution of `e` meets or excludes shows under some marking. -/
theorem exists_enables (untouched : f ∉ touched g e) (calm : Undisturbed g e f)
    (constraint : f ∈ g.conditions t ∪ g.milestones t)
    (removed : t = e ∨ t ∈ g.excludes e \ g.includes e) : ∃ m, Within D m ∧
      ¬Enabled g m f ∧ Enabled g (execute g m e) f := by
  have hD := constraints t constraint
  obtain hc | hm := constraint
  · refine ⟨marked D {t} ∅ ∅, within_marked _ _ _ _, ?_, ?_⟩
    · exact not_enabled_of_unexecuted hc (fun h ↦ h.1) fun h ↦ h.2 rfl
    · refine enabled_execute_marked constraints untouched calm ?_ fun _ h ↦ absurd h id
      rintro _ rfl -
      exact removed
  · refine ⟨marked D ∅ {t} ∅, within_marked _ _ _ _, ?_, ?_⟩
    · exact not_enabled_of_pending hm (fun h ↦ h.1) ⟨rfl, hD⟩
    · refine enabled_execute_marked constraints untouched calm (fun _ h ↦ absurd h id) ?_
      rintro _ rfl -
      exact removed

/-- One that the execution of another event includes shows under the opposite one. -/
theorem exists_disables_of_included (ne : t ≠ e) (hf : f ≠ t)
    (constraint : f ∈ g.conditions t ∪ g.milestones t) (included : t ∈ g.includes e) :
    ∃ m, Within D m ∧ Enabled g m f ∧ ¬Enabled g (execute g m e) f := by
  have hD := constraints t constraint
  have still {m : Marking E} : t ∉ (execute g m e).excluded := fun h ↦ h.2 included
  obtain hc | hm := constraint
  · refine ⟨marked D {t} ∅ {t}, within_marked _ _ _ _, ?_, ?_⟩
    · exact enabled_marked constraints hf (fun _ h _ ↦ h) fun _ h ↦ absurd h id
    · refine not_enabled_of_unexecuted hc still ?_
      rintro (h | h)
      · exact ne h
      · exact h.2 rfl
  · refine ⟨marked D ∅ {t} {t}, within_marked _ _ _ _, ?_, ?_⟩
    · exact enabled_marked constraints hf (fun _ h ↦ absurd h id) fun _ h _ ↦ h
    · exact not_enabled_of_pending hm still (Or.inl ⟨⟨rfl, hD⟩, ne⟩)

/-- Any constraint through which `e` affects `f` shows, one way or the other. -/
theorem exists_shows (untouched : f ∉ touched g e) (calm : Undisturbed g e f)
    (constraint : f ∈ g.conditions t ∪ g.milestones t)
    (written : t = e ∨ t ∈ g.excludes e ∪ g.includes e) : ∃ m, Within D m ∧
      ¬(Enabled g m f ↔ Enabled g (execute g m e) f) := by
  by_cases removed : t = e ∨ t ∈ g.excludes e \ g.includes e
  · obtain ⟨m, hD, before, after⟩ := exists_enables constraints untouched calm constraint removed
    exact ⟨m, hD, fun h ↦ before (h.mpr after)⟩
  · have ne : t ≠ e := fun h ↦ removed (Or.inl h)
    have included : t ∈ g.includes e := by
      by_contra hi
      refine removed (Or.inr ?_)
      obtain h | h | h := written
      · exact absurd h ne
      · exact ⟨h, hi⟩
      · exact absurd h hi
    have hf : f ≠ t := fun h ↦ untouched (Or.inl (Or.inr (h ▸ included)))
    obtain ⟨m, hD, before, after⟩ :=
      exists_disables_of_included constraints ne hf constraint included
    exact ⟨m, hD, fun h ↦ after (h.mp before)⟩

/-- An event that is affected sees a change under some marking of events in `D`. -/
theorem exists_not_sameView (hf : f ∈ D) (affected : Affects g e f) :
    ∃ m, Within D m ∧ ¬SameView g f m (execute g m e) := by
  by_cases untouched : f ∉ touched g e
  swap
  · -- the marks of `f` itself are written
    obtain (hx | hi) | hr := not_not.mp untouched
    · by_cases hi : f ∈ g.includes e
      · refine ⟨marked D ∅ ∅ {f}, within_marked _ _ _ _, fun view ↦ ?_⟩
        exact (view.excluded.mp ⟨rfl, hf⟩).2 hi
      · refine ⟨marked D ∅ ∅ ∅, within_marked _ _ _ _, fun view ↦ ?_⟩
        exact (view.excluded.mpr ⟨Or.inr hx, hi⟩).1
    · refine ⟨marked D ∅ ∅ {f}, within_marked _ _ _ _, fun view ↦ ?_⟩
      exact (view.excluded.mp ⟨rfl, hf⟩).2 hi
    · refine ⟨marked D ∅ ∅ ∅, within_marked _ _ _ _, fun view ↦ ?_⟩
      exact (view.pending.mpr (Or.inr hr)).1
  suffices shows : ∃ m, Within D m ∧ ¬(Enabled g m f ↔ Enabled g (execute g m e) f) by
    obtain ⟨m, hD, h⟩ := shows
    exact ⟨m, hD, fun view ↦ h view.enabled⟩
  by_cases calm : Undisturbed g e f
  · obtain h | h | ⟨t, ht, h⟩ | ⟨t, ht, h⟩ := affected
    · exact absurd h untouched
    · exact exists_shows constraints untouched calm h (Or.inl rfl)
    · exact exists_shows constraints untouched calm (Or.inl h) (Or.inr ht)
    · obtain ht | hr := ht
      · exact exists_shows constraints untouched calm (Or.inr h) (Or.inr ht)
      · exact exists_shows constraints untouched calm (Or.inr h) (Or.inr (Or.inl (calm t hr h).1))
  · -- a response makes an included milestone pending
    simp only [Undisturbed, not_forall] at calm
    obtain ⟨t, hr, hm, hx⟩ := calm
    refine ⟨marked D ∅ ∅ ∅, within_marked _ _ _ _, fun h ↦ ?_⟩
    have before := enabled_marked (x := ∅) constraints id (fun _ h ↦ absurd h id)
      fun _ h ↦ absurd h id
    have pending : t ∈ (execute g (marked D ∅ ∅ ∅) e).pending := Or.inr hr
    refine not_enabled_of_pending hm ?_ pending (h.mp before)
    rintro ⟨hnone | hexcluded, hi⟩
    · exact hnone.1
    · exact hx ⟨hexcluded, hi⟩

end

end TrustedDcr.Theory.Dcr
