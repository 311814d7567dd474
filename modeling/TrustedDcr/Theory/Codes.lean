import Mathlib.Data.List.Basic

/-!
# Codes that can be read back

A code whose words can be split off the front of any string is read back word by
word. Words of one length are enough.
-/

namespace TrustedDcr.Theory

variable {α β B : Type} {valid : α → Prop} {f : α → List B} {other : β → Prop} {g : β → List B}

/-- The words of valid values can be split off the front of any string. -/
def Splits (f : α → List B) (valid : α → Prop) : Prop :=
  ∀ {a b : α} {s t : List B}, valid a → valid b → f a ++ s = f b ++ t → a = b ∧ s = t

namespace Splits

/-- Distinct words of one length. -/
theorem of_length {n : Nat} (length : ∀ a, (f a).length = n)
    (inj : ∀ {a b}, valid a → valid b → f a = f b → a = b) : Splits f valid := by
  intro a b s t ha hb heq
  have hlength : (f a).length = (f b).length := by rw [length, length]
  obtain ⟨hword, hrest⟩ := List.append_inj heq hlength
  exact ⟨inj ha hb hword, hrest⟩

/-- A word of one kind and then one of another. -/
theorem prod (first : Splits f valid) (second : Splits g other) :
    Splits (fun x : α × β ↦ f x.1 ++ g x.2) fun x ↦ valid x.1 ∧ other x.2 := by
  rintro ⟨a, b⟩ ⟨a', b'⟩ s t ⟨ha, hb⟩ ⟨ha', hb'⟩ heq
  simp only [List.append_assoc] at heq
  obtain ⟨rfl, htail⟩ := first ha ha' heq
  obtain ⟨rfl, hrest⟩ := second hb hb' htail
  exact ⟨rfl, hrest⟩

/-- The words of the parts of a value. -/
theorem comap {h : β → α} (splits : Splits f valid) (inj : Function.Injective h)
    (parts : ∀ b, other b → valid (h b)) : Splits (fun b ↦ f (h b)) other := by
  intro a b s t ha hb heq
  obtain ⟨hword, hrest⟩ := splits (parts a ha) (parts b hb) heq
  exact ⟨inj hword, hrest⟩

/-- Whole words are of one value. -/
theorem eq (splits : Splits f valid) {a b : α} (ha : valid a) (hb : valid b) (heq : f a = f b) :
    a = b :=
  (splits ha hb (congrArg (· ++ []) heq)).1

/-- As many words one after the other. -/
theorem flatten (splits : Splits f valid) {as bs : List α} {s t : List B}
    (ha : ∀ a ∈ as, valid a) (hb : ∀ b ∈ bs, valid b) (length : as.length = bs.length)
    (heq : (as.map f).flatten ++ s = (bs.map f).flatten ++ t) : as = bs ∧ s = t := by
  induction as generalizing bs with
  | nil =>
    obtain rfl := List.length_eq_zero_iff.mp length.symm
    exact ⟨rfl, heq⟩
  | cons a as ih =>
    cases bs with
    | nil => exact nomatch length
    | cons b bs =>
      obtain ⟨hav, has⟩ := List.forall_mem_cons.mp ha
      obtain ⟨hbv, hbs⟩ := List.forall_mem_cons.mp hb
      simp only [List.map_cons, List.flatten_cons, List.append_assoc] at heq
      obtain ⟨rfl, htail⟩ := splits hav hbv heq
      obtain ⟨rfl, hrest⟩ := ih has hbs (Nat.succ.inj length) htail
      exact ⟨rfl, hrest⟩

end Splits

end TrustedDcr.Theory
