import TrustedDcr.Theory.Blind

/-!
# Properties that a program has with its parts

A compositional property holds of a program when it holds of the steps that the program
is made of. A program is then walked through once for all such properties. To change
the state along a relation is one, and not to see a part of the state is another.
-/

namespace TrustedDcr.Theory

variable {σ ε α β κ : Type}

/-- Whatever the program returns is as stated. -/
def Yields (P : α → Prop) (x : StateT σ (Except ε) α) : Prop := ∀ s, wp x (fun a _ ↦ P a) s

/-- What every call yields, every member of the list collected from them has. -/
theorem Yields.mapM {P : β → Prop} {f : α → StateT σ (Except ε) β} (h : ∀ a, Yields P (f a))
    (l : List α) : Yields (fun bs ↦ ∀ b ∈ bs, P b) (l.mapM f) := by
  induction l with
  | nil =>
    rw [List.mapM_nil]
    exact fun _ ↦ wp_pure.mpr (List.forall_mem_nil P)
  | cons a l ih =>
    intro s
    rw [List.mapM_cons, wp_bind]
    refine wp_mono (h a s) fun b t hb ↦ ?_
    rw [wp_bind]
    refine wp_mono (ih t) fun bs u hbs ↦ wp_pure.mpr ?_
    exact List.forall_mem_cons.mpr ⟨hb, hbs⟩

/-- The property passes from the parts of a program to the whole. -/
structure Compositional (J : (α : Type) → StateT σ (Except ε) α → Prop) : Prop where
  pure : ∀ {α : Type} (a : α), J α (pure a)
  lift : ∀ {α : Type} (x : Except ε α), J α (liftM x)
  /-- The rest has to have the property for the results of the first part only. -/
  bind_of : ∀ {α β : Type} {P : α → Prop} {x : StateT σ (Except ε) α}
    {f : α → StateT σ (Except ε) β}, J α x → Yields P x → (∀ a, P a → J β (f a)) → J β (x >>= f)

namespace Compositional

variable {J : (α : Type) → StateT σ (Except ε) α → Prop}

/-- A property of both branches is one of the choice between them. -/
theorem ite (_ : Compositional J) {c : Prop} [Decidable c] {x y : StateT σ (Except ε) α}
    (hx : J α x) (hy : J α y) : J α (if c then x else y) := by
  split
  · exact hx
  · exact hy

variable (h : Compositional J)
include h

/-- A property of a program and of all that may follow is one of the two in a row. -/
theorem bind {x : StateT σ (Except ε) α} {f : α → StateT σ (Except ε) β} (hx : J α x)
    (hf : ∀ a, J β (f a)) : J β (x >>= f) :=
  h.bind_of (P := fun _ ↦ True) hx (fun _ _ _ _ ↦ trivial) fun a _ ↦ hf a

/-- A conditional step before the rest of a program. -/
theorem when {c : Prop} [Decidable c] {x : StateT σ (Except ε) PUnit}
    {rest : PUnit → StateT σ (Except ε) β} (hx : J PUnit x) (hrest : J β (rest ⟨⟩)) :
    J β (if c then x >>= rest else rest ⟨⟩) :=
  h.ite (h.bind hx fun _ ↦ hrest) hrest

/-- A property of the loop's body is one of the loop. -/
theorem forM {f : α → StateT σ (Except ε) PUnit} (hf : ∀ a, J PUnit (f a)) (l : List α) :
    J PUnit (l.forM f) := by
  induction l with
  | nil => exact h.pure PUnit.unit
  | cons a l ih => exact h.bind (hf a) fun _ ↦ ih

/-- A property of the calls is one of collecting their results. -/
theorem mapM {f : α → StateT σ (Except ε) β} (hf : ∀ a, J β (f a)) (l : List α) :
    J (List β) (l.mapM f) := by
  induction l with
  | nil =>
    rw [List.mapM_nil]
    exact h.pure []
  | cons a l ih =>
    rw [List.mapM_cons]
    exact h.bind (hf a) fun b ↦ h.bind ih fun bs ↦ h.pure _

end Compositional

/-- Programs change the state along a reflexive and transitive relation when their steps do. -/
theorem compositional_along {R : σ → σ → Prop} [Std.Refl R] [IsTrans σ R] :
    Compositional (ε := ε) fun _ x ↦ Along R x where
  pure a := Along.pure a
  lift x := Along.lift x
  bind_of hx hP hf s := wp_bind.mpr <| wp_mono (wp_and (hx s) (hP s)) fun a t ⟨hst, ha⟩ ↦
    wp_mono (hf a ha t) fun _ _ htu ↦ IsTrans.trans _ _ _ hst htu

/-- Programs do not see a part of the state when their steps do not. -/
theorem compositional_blind {act : κ → σ → σ} : Compositional (ε := ε) fun _ x ↦ Blind act x where
  pure a := Blind.pure a
  lift x := Blind.lift x
  bind_of hx hP hf := Blind.bind_of hx fun a s t hs ↦ hf a (hP s a t hs)

end TrustedDcr.Theory
