import Mathlib.Data.List.Forall2
import Mathlib.Order.Defs.Unbundled

/-!
# Postconditions of stateful programs that may fail

`wp x Q s` says that `x`, started in `s`, satisfies `Q` whenever it returns; a
failure satisfies everything. The rules follow the program's text; `wp_mono` and
the loop rules carry a reflexive and transitive relation through a program.
-/

namespace TrustedDcr.Theory

variable {σ ε α β : Type}

/-- Whatever the program returns, with the state it leaves, satisfies `Q`. -/
def wp (x : StateT σ (Except ε) α) (Q : α → σ → Prop) (s : σ) : Prop :=
  ∀ a t, x s = .ok (a, t) → Q a t

/-- A result given back at once is judged where it is given. -/
theorem wp_pure {a : α} {Q : α → σ → Prop} {s : σ} :
    wp (pure a : StateT σ (Except ε) α) Q s ↔ Q a s := by
  constructor
  · intro h
    exact h a s rfl
  · rintro h _ _ ⟨⟩
    exact h

/-- What follows is judged on each result and state of what comes first. -/
theorem wp_bind {x : StateT σ (Except ε) α} {f : α → StateT σ (Except ε) β} {Q : β → σ → Prop}
    {s : σ} : wp (x >>= f) Q s ↔ wp x (fun a t ↦ wp (f a) Q t) s := by
  have step (r : Except ε (α × σ)) : (StateT.bind (fun _ ↦ r) f s : Except ε (β × σ)) =
      match r with
      | .ok (a, t) => f a t
      | .error e => .error e := by
    cases r <;> rfl
  have hb : (x >>= f) s = match x s with
      | .ok (a, t) => f a t
      | .error e => .error e := step (x s)
  constructor
  · intro h a t hx b u hf
    refine h b u ?_
    rw [hb, hx]
    exact hf
  · intro h b u hxf
    rw [hb] at hxf
    cases hx : x s with
    | error e =>
      rw [hx] at hxf
      exact nomatch hxf
    | ok r =>
      rw [hx] at hxf
      exact h r.1 r.2 hx b u hxf

/-- Reading the state gives the state. -/
theorem wp_get {Q : σ → σ → Prop} {s : σ} :
    wp (get : StateT σ (Except ε) σ) Q s ↔ Q s s := by
  constructor
  · intro h
    exact h s s rfl
  · rintro h _ _ ⟨⟩
    exact h

/-- An assignment is judged on the state it makes. -/
theorem wp_modify {f : σ → σ} {Q : PUnit → σ → Prop} {s : σ} :
    wp (modify f : StateT σ (Except ε) PUnit) Q s ↔ Q ⟨⟩ (f s) := by
  constructor
  · intro h
    exact h ⟨⟩ (f s) rfl
  · rintro h _ _ ⟨⟩
    exact h

/-- A computation without state, run inside a stateful one. -/
theorem wp_lift {x : Except ε α} {Q : α → σ → Prop} {s : σ} :
    wp (liftM x : StateT σ (Except ε) α) Q s ↔ ∀ a, x = .ok a → Q a s := by
  cases x with
  | error e =>
    constructor
    · exact fun _ _ h ↦ nomatch h
    · exact fun _ _ _ h ↦ nomatch h
  | ok a =>
    constructor
    · rintro h _ ⟨⟩
      exact h a s rfl
    · rintro h _ _ ⟨⟩
      exact h a rfl

/-- A choice is judged on the branch taken. -/
theorem wp_ite {c : Prop} [Decidable c] {x y : StateT σ (Except ε) α} {Q : α → σ → Prop} {s : σ} :
    wp (if c then x else y) Q s ↔ (c → wp x Q s) ∧ (¬c → wp y Q s) := by
  by_cases hc : c <;> simp [hc]

/-- A conditional step before the rest of a program, with what holds in between. -/
theorem wp_when {c : Prop} [Decidable c] {x : StateT σ (Except ε) PUnit}
    {rest : PUnit → StateT σ (Except ε) α} {Q : α → σ → Prop} {s : σ} (R : σ → Prop)
    (hx : c → wp x (fun _ ↦ R) s) (hs : ¬c → R s) (hrest : ∀ t, R t → wp (rest ⟨⟩) Q t) :
    wp (if c then x >>= rest else rest ⟨⟩) Q s := by
  rw [wp_ite, wp_bind]
  exact ⟨fun hc a t hxt ↦ hrest t (hx hc a t hxt), fun hc ↦ hrest s (hs hc)⟩

/-- A weaker postcondition holds where a stronger one does. -/
theorem wp_mono {x : StateT σ (Except ε) α} {Q R : α → σ → Prop} {s : σ} (h : wp x Q s)
    (hQR : ∀ a t, Q a t → R a t) : wp x R s :=
  fun a t hx ↦ hQR a t (h a t hx)

/-- Two postconditions hold together. -/
theorem wp_and {x : StateT σ (Except ε) α} {Q R : α → σ → Prop} {s : σ} (hQ : wp x Q s)
    (hR : wp x R s) : wp x (fun a t ↦ Q a t ∧ R a t) s :=
  fun a t hx ↦ ⟨hQ a t hx, hR a t hx⟩

/-- The program changes any state along the relation `R`. -/
def Along (R : σ → σ → Prop) (x : StateT σ (Except ε) α) : Prop := ∀ s, wp x (fun _ t ↦ R s t) s

/-- A step along a relation before the rest of a program. -/
theorem wp_bind_along {R : σ → σ → Prop} {x : StateT σ (Except ε) α}
    {f : α → StateT σ (Except ε) β} {Q : β → σ → Prop} {s : σ} (hx : Along R x)
    (hf : ∀ a t, R s t → wp (f a) Q t) : wp (x >>= f) Q s :=
  wp_bind.mpr (wp_mono (hx s) hf)

namespace Along

variable {R : σ → σ → Prop}

/-- A transitive relation that two programs move along, they move along in a row. -/
protected theorem bind [IsTrans σ R] {x : StateT σ (Except ε) α} {f : α → StateT σ (Except ε) β}
    (hx : Along R x) (hf : ∀ a, Along R (f a)) : Along R (x >>= f) := fun _ ↦
  wp_bind_along hx fun a _ hst ↦ wp_mono (hf a _) fun _ _ htu ↦ IsTrans.trans _ _ _ hst htu

/-- A result given back at once moves along any reflexive relation. -/
protected theorem pure [Std.Refl R] (a : α) : Along R (pure a : StateT σ (Except ε) α) :=
  fun s ↦ wp_pure.mpr (Std.Refl.refl s)

/-- A result or an error from outside moves along any reflexive relation. -/
protected theorem lift [Std.Refl R] (x : Except ε α) : Along R (liftM x : StateT σ (Except ε) α) :=
  fun s ↦ wp_lift.mpr fun _ _ ↦ Std.Refl.refl s

/-- An assignment moves along what relates each state to the one it makes. -/
protected theorem modify {f : σ → σ} (h : ∀ s, R s (f s)) :
    Along R (modify f : StateT σ (Except ε) PUnit) := fun s ↦ wp_modify.mpr (h s)

/-- A choice moves along what both branches move along. -/
protected theorem ite {c : Prop} [Decidable c] {x y : StateT σ (Except ε) α} (hx : Along R x)
    (hy : Along R y) : Along R (if c then x else y) := by
  split
  · exact hx
  · exact hy

/-- A conditional step before the rest of a program. -/
protected theorem when [IsTrans σ R] {c : Prop} [Decidable c] {x : StateT σ (Except ε) PUnit}
    {rest : PUnit → StateT σ (Except ε) β} (hx : Along R x) (hrest : Along R (rest ⟨⟩)) :
    Along R (if c then x >>= rest else rest ⟨⟩) :=
  Along.ite (hx.bind fun _ ↦ hrest) hrest

/-- A loop whose body changes the state along a relation does so as a whole. -/
protected theorem forM [Std.Refl R] [IsTrans σ R] {f : α → StateT σ (Except ε) PUnit} {l : List α}
    (hf : ∀ a ∈ l, Along R (f a)) : Along R (l.forM f) := by
  induction l with
  | nil => exact Along.pure PUnit.unit
  | cons a l ih =>
    exact (hf a List.mem_cons_self).bind fun _ ↦ ih fun c hc ↦ hf c (List.mem_cons_of_mem _ hc)

end Along

/-- The same for a loop that collects results, with what holds of each element's result. -/
theorem wp_mapM_forall₂ {R : σ → σ → Prop} [Std.Refl R] [IsTrans σ R]
    {f : α → StateT σ (Except ε) β} {l : List α} {P : α → β → Prop}
    (hf : ∀ a ∈ l, ∀ s, wp (f a) (fun b t ↦ R s t ∧ P a b) s) (s : σ) :
    wp (l.mapM f) (fun bs t ↦ R s t ∧ List.Forall₂ P l bs) s := by
  induction l generalizing s with
  | nil =>
    rw [List.mapM_nil]
    exact wp_pure.mpr ⟨Std.Refl.refl s, .nil⟩
  | cons a l ih =>
    rw [List.mapM_cons, wp_bind]
    refine wp_mono (hf a List.mem_cons_self s) fun b t ⟨hst, hb⟩ ↦ ?_
    rw [wp_bind]
    refine wp_mono (ih (fun c hc ↦ hf c (List.mem_cons_of_mem _ hc)) t) fun bs u ⟨htu, hbs⟩ ↦ ?_
    exact wp_pure.mpr ⟨IsTrans.trans _ _ _ hst htu, .cons hb hbs⟩

/-- What every related pair says of its second component. -/
theorem forall_mem_of_forall₂ {R : α → β → Prop} {P : β → Prop} {l : List α} {bs : List β}
    (h : List.Forall₂ R l bs) (hR : ∀ a b, R a b → P b) : ∀ b ∈ bs, P b := by
  induction h with
  | nil => exact fun _ hb ↦ nomatch hb
  | cons hab _ ih => exact List.forall_mem_cons.mpr ⟨hR _ _ hab, ih⟩

/-- What holds of every result alike. -/
theorem wp_mapM {R : σ → σ → Prop} [Std.Refl R] [IsTrans σ R] {f : α → StateT σ (Except ε) β}
    {l : List α} {P : β → Prop} (hf : ∀ a ∈ l, ∀ s, wp (f a) (fun b t ↦ R s t ∧ P b) s) (s : σ) :
    wp (l.mapM f) (fun bs t ↦ R s t ∧ ∀ b ∈ bs, P b) s := by
  refine wp_mono (wp_mapM_forall₂ (P := fun _ b ↦ P b) hf s) ?_
  rintro bs t ⟨hst, hbs⟩
  exact ⟨hst, forall_mem_of_forall₂ hbs fun _ _ hb ↦ hb⟩

/-- A loop that collects results changes the state along the relation of its body. -/
protected theorem Along.mapM {R : σ → σ → Prop} [Std.Refl R] [IsTrans σ R]
    {f : α → StateT σ (Except ε) β} {l : List α} (hf : ∀ a ∈ l, Along R (f a)) :
    Along R (l.mapM f) := fun s ↦
  wp_mono (wp_mapM (P := fun _ ↦ True)
    (fun a ha t ↦ wp_mono (hf a ha t) fun _ _ h ↦ ⟨h, trivial⟩) s) fun _ _ h ↦ h.1

/-! ### Programs that do return -/

/-- What a program does after a part that returns. -/
theorem bind_of_ok {x : StateT σ (Except ε) α} {f : α → StateT σ (Except ε) β} {s t : σ} {a : α}
    (hx : x s = .ok (a, t)) : (x >>= f) s = f a t := by
  change (x s >>= fun r ↦ f r.1 r.2) = _
  rw [hx]
  rfl

/-- What is known of a program after a part that returns. -/
theorem wp_bind_of_ok {x : StateT σ (Except ε) α} {f : α → StateT σ (Except ε) β}
    {Q : β → σ → Prop} {s t : σ} {a : α} (hx : x s = .ok (a, t)) (hf : wp (f a) Q t) :
    wp (x >>= f) Q s := fun b u hu ↦ hf b u ((bind_of_ok hx).symm.trans hu)

/-- What a program does after a computation without state that returns. -/
theorem bind_lift_of_ok {x : Except ε α} {f : α → StateT σ (Except ε) β} {s : σ} {a : α}
    (hx : x = .ok a) : ((liftM x : StateT σ (Except ε) α) >>= f) s = f a s := by
  subst hx
  exact bind_of_ok rfl

/-- The program returns, and satisfies `Q`. -/
def Runs (x : StateT σ (Except ε) α) (Q : α → σ → Prop) (s : σ) : Prop :=
  ∃ a t, x s = .ok (a, t) ∧ Q a t

namespace Runs

variable {s : σ}

/-- A result given back at once is a run. -/
protected theorem pure {a : α} {Q : α → σ → Prop} (h : Q a s) :
    Runs (pure a : StateT σ (Except ε) α) Q s := ⟨a, s, rfl, h⟩

/-- An assignment always runs. -/
protected theorem modify {f : σ → σ} {Q : PUnit → σ → Prop} (h : Q ⟨⟩ (f s)) :
    Runs (modify f : StateT σ (Except ε) PUnit) Q s := ⟨⟨⟩, f s, rfl, h⟩

/-- A result from outside is a run, an error is none. -/
protected theorem lift {x : Except ε α} {a : α} {Q : α → σ → Prop} (hx : x = .ok a) (h : Q a s) :
    Runs (liftM x : StateT σ (Except ε) α) Q s := by
  subst hx
  exact ⟨a, s, rfl, h⟩

/-- Two programs run in a row when the second runs on all the first may give. -/
protected theorem bind {x : StateT σ (Except ε) α} {f : α → StateT σ (Except ε) β}
    {R : α → σ → Prop} {Q : β → σ → Prop} (hx : Runs x R s)
    (hf : ∀ a t, R a t → Runs (f a) Q t) : Runs (x >>= f) Q s := by
  obtain ⟨a, t, hxs, hR⟩ := hx
  obtain ⟨b, u, hfa, hQ⟩ := hf a t hR
  exact ⟨b, u, (bind_of_ok hxs).trans hfa, hQ⟩

end Runs

/-- A computation without state that returns at every step. -/
theorem exists_ok_bind {x : Except ε α} {f : α → Except ε β} (hx : ∃ a, x = .ok a)
    (hf : ∀ a, x = .ok a → ∃ b, f a = .ok b) : ∃ b, (x >>= f) = .ok b := by
  obtain ⟨a, ha⟩ := hx
  obtain ⟨b, hb⟩ := hf a ha
  rw [ha]
  exact ⟨b, hb⟩

/-- A list of calls that each give a result gives them all. -/
theorem exists_ok_mapM {f : α → Except ε β} {l : List α} (hf : ∀ a ∈ l, ∃ b, f a = .ok b) :
    ∃ bs, l.mapM f = .ok bs := by
  induction l with
  | nil => exact ⟨[], rfl⟩
  | cons a l ih =>
    rw [List.mapM_cons]
    apply exists_ok_bind (hf a List.mem_cons_self)
    intro b _
    apply exists_ok_bind (ih fun c hc ↦ hf c (List.mem_cons_of_mem _ hc))
    intro bs _
    exact ⟨b :: bs, rfl⟩

/-- The program returns. -/
def Returns (x : StateT σ (Except ε) α) (s : σ) : Prop := ∃ a t, x s = .ok (a, t)

/-- The program returns from every state. -/
def Total (x : StateT σ (Except ε) α) : Prop := ∀ s, Returns x s

namespace Returns

variable {s : σ}

/-- A result given back at once returns. -/
protected theorem pure (a : α) : Returns (pure a : StateT σ (Except ε) α) s := ⟨a, s, rfl⟩

/-- An assignment returns. -/
protected theorem modify (f : σ → σ) : Returns (modify f : StateT σ (Except ε) PUnit) s :=
  ⟨⟨⟩, f s, rfl⟩

/-- A result from outside returns, an error does not. -/
protected theorem lift {x : Except ε α} (h : ∃ a, x = .ok a) :
    Returns (liftM x : StateT σ (Except ε) α) s := by
  obtain ⟨a, rfl⟩ := h
  exact ⟨a, s, rfl⟩

/-- The rest has to return from the states that the first part leaves only. -/
protected theorem bind {x : StateT σ (Except ε) α} {f : α → StateT σ (Except ε) β}
    (hx : Returns x s) (hf : wp x (fun a t ↦ Returns (f a) t) s) : Returns (x >>= f) s := by
  obtain ⟨a, t, hxs⟩ := hx
  obtain ⟨b, u, hfa⟩ := hf a t hxs
  exact ⟨b, u, (bind_of_ok hxs).trans hfa⟩

/-- A program that returns, followed by what always does, returns. -/
protected theorem bind_total {x : StateT σ (Except ε) α} {f : α → StateT σ (Except ε) β}
    (hx : Returns x s) (hf : ∀ a, Total (f a)) : Returns (x >>= f) s :=
  hx.bind fun a t _ ↦ hf a t

/-- A choice returns when the branch taken does. -/
protected theorem ite {c : Prop} [Decidable c] {x y : StateT σ (Except ε) α}
    (hx : c → Returns x s) (hy : ¬c → Returns y s) : Returns (if c then x else y) s := by
  by_cases hc : c
  · rw [if_pos hc]
    exact hx hc
  · rw [if_neg hc]
    exact hy hc

/-- A conditional step before the rest of a program, with what holds in between. -/
protected theorem when {c : Prop} [Decidable c] {x : StateT σ (Except ε) PUnit}
    {rest : PUnit → StateT σ (Except ε) α} (R : σ → Prop) (hx : c → Returns x s)
    (hR : c → wp x (fun _ ↦ R) s) (hs : ¬c → R s) (hrest : ∀ t, R t → Returns (rest ⟨⟩) t) :
    Returns (if c then x >>= rest else rest ⟨⟩) s := by
  apply Returns.ite
  · intro hc
    exact (hx hc).bind (wp_mono (hR hc) fun _ t ht ↦ hrest t ht)
  · intro hc
    exact hrest s (hs hc)

end Returns

namespace Total

/-- A result given back at once returns from every state. -/
protected theorem pure (a : α) : Total (pure a : StateT σ (Except ε) α) := fun _ ↦ Returns.pure a

/-- An assignment returns from every state. -/
protected theorem modify (f : σ → σ) : Total (modify f : StateT σ (Except ε) PUnit) :=
  fun _ ↦ Returns.modify f

/-- A result from outside returns from every state. -/
protected theorem lift {x : Except ε α} (h : ∃ a, x = .ok a) :
    Total (liftM x : StateT σ (Except ε) α) := fun _ ↦ Returns.lift h

/-- Programs that always return do so in a row. -/
protected theorem bind {x : StateT σ (Except ε) α} {f : α → StateT σ (Except ε) β}
    (hx : Total x) (hf : ∀ a, Total (f a)) : Total (x >>= f) := fun s ↦ (hx s).bind_total hf

/-- A choice between programs that always return is one. -/
protected theorem ite {c : Prop} [Decidable c] {x y : StateT σ (Except ε) α} (hx : Total x)
    (hy : Total y) : Total (if c then x else y) := fun s ↦
  Returns.ite (fun _ ↦ hx s) fun _ ↦ hy s

/-- A loop over a list returns when its body does on each member. -/
protected theorem forM {f : α → StateT σ (Except ε) PUnit} {l : List α}
    (hf : ∀ a ∈ l, Total (f a)) : Total (l.forM f) := by
  induction l with
  | nil => exact Total.pure PUnit.unit
  | cons a l ih =>
    apply Total.bind (hf a List.mem_cons_self)
    intro _
    exact ih fun c hc ↦ hf c (List.mem_cons_of_mem _ hc)

/-- Collecting results over a list returns when each call does. -/
protected theorem mapM {f : α → StateT σ (Except ε) β} {l : List α}
    (hf : ∀ a ∈ l, Total (f a)) : Total (l.mapM f) := by
  induction l with
  | nil =>
    rw [List.mapM_nil]
    exact Total.pure []
  | cons a l ih =>
    rw [List.mapM_cons]
    apply Total.bind (hf a List.mem_cons_self)
    intro b
    apply Total.bind (ih fun c hc ↦ hf c (List.mem_cons_of_mem _ hc))
    intro bs
    exact Total.pure (b :: bs)

end Total

end TrustedDcr.Theory
