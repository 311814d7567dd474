import TrustedDcr.Theory.Program

/-!
# Programs that do not see a part of their state

`act k` puts a value of the hidden part into a state. A blind program returns or
fails whatever the hidden part is, with the same result and the same rest of the
state; what it writes to the hidden part may depend on what was there.
-/

namespace TrustedDcr.Theory

variable {σ ε α β κ : Type} {act : κ → σ → σ}

/-- What the program does, apart from the hidden part of the state, does not depend on it. -/
def Blind (act : κ → σ → σ) (x : StateT σ (Except ε) α) : Prop :=
  ∀ k s, ∃ k', x (act k s) = (x s).map (Prod.map id (act k'))

namespace Blind

/-- A result given back at once has seen no state. -/
protected theorem pure (a : α) : Blind act (pure a : StateT σ (Except ε) α) := fun k _ ↦ ⟨k, rfl⟩

/-- A result or an error from outside has seen no state. -/
protected theorem lift (x : Except ε α) : Blind act (liftM x : StateT σ (Except ε) α) := by
  intro k s
  refine ⟨k, ?_⟩
  cases x <;> rfl

/-- The rest has to be blind for the results of the first part only. -/
theorem bind_of {x : StateT σ (Except ε) α} {f : α → StateT σ (Except ε) β} (hx : Blind act x)
    (hf : ∀ a s t, x s = .ok (a, t) → Blind act (f a)) : Blind act (x >>= f) := by
  intro k s
  obtain ⟨k', hact⟩ := hx k s
  change ∃ k', (x (act k s) >>= fun r ↦ f r.1 r.2) =
    (x s >>= fun r ↦ f r.1 r.2).map (Prod.map id (act k'))
  rw [hact]
  cases hs : x s with
  | error e => exact ⟨k, rfl⟩
  | ok r => exact hf r.1 s r.2 hs k' r.2

/-- An assignment that does not copy from the hidden part. -/
protected theorem modify {f : σ → σ} (h : ∀ k s, ∃ k', f (act k s) = act k' (f s)) :
    Blind act (modify f : StateT σ (Except ε) PUnit) := by
  intro k s
  obtain ⟨k', hf⟩ := h k s
  exact ⟨k', congrArg (fun t ↦ Except.ok (PUnit.unit, t)) hf⟩

/-- A result under one hidden part is the result under any other. -/
theorem eq_ok {x : StateT σ (Except ε) α} (h : Blind act x) {s t : σ} {a : α} (hx : x s = .ok (a, t))
    (k : κ) : ∃ k', x (act k s) = .ok (a, act k' t) := by
  obtain ⟨k', hk⟩ := h k s
  rw [hx] at hk
  exact ⟨k', hk⟩

end Blind

end TrustedDcr.Theory
