import Mathlib.Data.List.Infix

/-!
# Entries by position

A log is a list that grows at its end and is cut, or continued, to a prefix of
another. Either way the entries that stay keep their positions.
-/

namespace TrustedDcr.Theory

variable {α : Type*} {l l' : List α} {a b : α} {i : Nat}

/-- A prefix agrees with the whole at its own positions. -/
theorem getElem?_eq_of_isPrefix (hp : l' <+: l) (hi : i < l'.length) : l[i]? = l'[i]? := by
  obtain ⟨rest, rfl⟩ := hp
  exact List.getElem?_append_left hi

/-- The entries of a prefix keep their positions. -/
theorem getElem?_of_isPrefix (hp : l' <+: l) (h : l'[i]? = some a) : l[i]? = some a := by
  rw [getElem?_eq_of_isPrefix hp (List.getElem?_eq_some_iff.mp h).1, h]

/-- Up to its length a prefix is the whole. -/
theorem take_eq_of_isPrefix (hp : l' <+: l) (hi : i ≤ l'.length) : l.take i = l'.take i := by
  obtain ⟨rest, rfl⟩ := hp
  exact List.take_append_of_le_length hi

/-- An entry of a log with one more at the end is an entry of the log or the last. -/
theorem getElem?_concat_cases (h : (l ++ [a])[i]? = some b) :
    i < l.length ∧ l[i]? = some b ∨ i = l.length ∧ b = a := by
  have hi := (List.getElem?_eq_some_iff.mp h).1
  rw [List.length_append, List.length_singleton] at hi
  rcases Nat.lt_or_ge i l.length with hlt | hge
  · exact Or.inl ⟨hlt, by rwa [List.getElem?_append_left hlt] at h⟩
  · obtain rfl : i = l.length := by omega
    rw [List.getElem?_concat_length, Option.some.injEq] at h
    exact Or.inr ⟨rfl, h.symm⟩

end TrustedDcr.Theory
