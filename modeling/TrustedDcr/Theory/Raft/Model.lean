import Mathlib.Data.Finset.Card
import Mathlib.Logic.Function.Basic
import TrustedDcr.Theory.Logs

/-!
# Replication by elected leaders

One cluster of peers replicating a log over arbitrary entries, without messages:
each action changes one peer and consults records of what was voted, elected,
logged and acknowledged. `Act.Guard` is what keeps elections and log matching
sound, `Act.Careful` what commitment needs besides. A program is verified by
exhibiting its steps as sequences of guarded (and careful) actions.
-/

namespace TrustedDcr.Theory.Raft

/-- What a peer does in its term. -/
inductive Role where
  | follower
  | candidate
  | leader
  deriving DecidableEq, Repr

/-- The peers and the records kept about them. `vote T q` is the candidate `q` voted for in term
`T` and the log `q` had then; `base T` is the log the leader of `T` was elected with, `tlog T` its
log at its longest in that term; `acked T q` is the length up to which `q` took over `tlog T`. -/
structure State (P E : Type) where
  term : P → Nat
  role : P → Role
  log : P → List E
  commit : P → Nat
  vote : Nat → P → Option (P × List E)
  elected : Nat → Option P
  base : Nat → List E
  tlog : Nat → List E
  acked : Nat → P → Nat

/-- What a peer can do. -/
inductive Act (P E : Type) where
  | bump (q : P) (T : Nat)
  | stand (p : P) (T : Nat)
  | grant (q c : P)
  | elect (p : P)
  | append (p : P) (e : E)
  | adopt (q : P) (k : Nat)
  | commit (q : P) (i : Nat)

variable {P E : Type} (tm : E → Nat)

/-- The peer that acts. -/
def Act.actor : Act P E → P
  | .bump q _ | .stand q _ | .grant q _ | .elect q | .append q _ | .adopt q _ | .commit q _ => q

/-- The term of the last entry. -/
def lastTm (l : List E) : Nat := (l.getLast?.map tm).getD 0

/-- A log whose last entry is of a later term, or of the same term and no lower index. -/
def UpToDate (l l' : List E) : Prop :=
  lastTm tm l' < lastTm tm l ∨ lastTm tm l' = lastTm tm l ∧ l'.length ≤ l.length

/-- Every entry stands where the longest log of its term has it, with the same entries below. -/
def Ok (tlog : Nat → List E) (l : List E) : Prop :=
  ∀ i e, l[i]? = some e → l.take (i + 1) = (tlog (tm e)).take (i + 1)

namespace State

/-- All of `V` voted for `p` in term `T`, and they are more than half of the members. -/
def Elects (s : State P E) (members : Finset P) (T : Nat) (p : P) (V : Finset P) : Prop :=
  V ⊆ members ∧ members.card < 2 * V.card ∧ ∀ v ∈ V, ∃ l, s.vote T v = some (p, l)

/-- At least half of the members took over the first `k` entries of the leader of `T`, the last
of them from `T` itself. -/
def Committed (s : State P E) (members : Finset P) (T k : Nat) : Prop :=
  (∃ e, (s.tlog T)[k - 1]? = some e ∧ tm e = T) ∧ 0 < k ∧
    ∃ C ⊆ members, members.card ≤ 2 * C.card ∧ ∀ c ∈ C, k ≤ s.acked T c

/-- The log is part of what was committed in some term up to `U`. -/
def Covered (s : State P E) (members : Finset P) (U : Nat) (l : List E) : Prop :=
  ∃ T ≤ U, ∃ k, s.Committed tm members T k ∧ l <+: (s.tlog T).take k

variable [DecidableEq P]

/-- The state after an action. -/
def act (s : State P E) : Act P E → State P E
  | .bump q T =>
    { s with term := Function.update s.term q T, role := Function.update s.role q .follower }
  | .stand p T =>
    { s with
      term := Function.update s.term p T
      role := Function.update s.role p .candidate
      vote := Function.update s.vote T (Function.update (s.vote T) p (some (p, s.log p))) }
  | .grant q c =>
    { s with
      vote := Function.update s.vote (s.term q)
        (Function.update (s.vote (s.term q)) q (some (c, s.log q))) }
  | .elect p =>
    { s with
      role := Function.update s.role p .leader
      elected := Function.update s.elected (s.term p) (some p)
      base := Function.update s.base (s.term p) (s.log p)
      tlog := Function.update s.tlog (s.term p) (s.log p)
      acked := Function.update s.acked (s.term p)
        (Function.update (s.acked (s.term p)) p (s.log p).length) }
  | .append p e =>
    { s with
      log := Function.update s.log p (s.log p ++ [e])
      tlog := Function.update s.tlog (s.term p) (s.log p ++ [e])
      acked := Function.update s.acked (s.term p)
        (Function.update (s.acked (s.term p)) p ((s.log p).length + 1)) }
  | .adopt q k =>
    { s with
      log := Function.update s.log q ((s.tlog (s.term q)).take k)
      acked := Function.update s.acked (s.term q)
        (Function.update (s.acked (s.term q)) q (max (s.acked (s.term q) q) k)) }
  | .commit q i => { s with commit := Function.update s.commit q i }

/-- Before any term: a common log of entries of term 0, and possibly a peer that leads term 0
without an election. -/
def init (root : List E) (boss : Option P) : State P E where
  term _ := 0
  role p := if boss = some p then .leader else .follower
  log _ := root
  commit _ := 0
  vote _ _ := none
  elected T := if T = 0 then boss else none
  base _ := []
  tlog T := if T = 0 then root else []
  acked T _ := if T = 0 then root.length else 0

/-- Records only grow. -/
structure Ext (s t : State P E) : Prop where
  vote : ∀ {T q v}, s.vote T q = some v → t.vote T q = some v
  elected : ∀ {T p}, s.elected T = some p → t.elected T = some p
  base : ∀ {T p}, s.elected T = some p → t.base T = s.base T
  tlog : ∀ T, s.tlog T <+: t.tlog T
  acked : ∀ T q, s.acked T q ≤ t.acked T q

end State

/-- Records that grow twice have grown. -/
theorem State.Ext.trans {s t u : State P E} (st : s.Ext t) (tu : t.Ext u) : s.Ext u where
  vote hv := tu.vote (st.vote hv)
  elected he := tu.elected (st.elected he)
  base he := (tu.base (st.elected he)).trans (st.base he)
  tlog T := (st.tlog T).trans (tu.tlog T)
  acked T q := (st.acked T q).trans (tu.acked T q)

variable (members : Finset P) [DecidableEq P]

/-- What keeps one leader a term and its log the only source of that term's entries. -/
def Act.Guard (s : State P E) : Act P E → Prop
  | .bump q T => s.term q < T
  | .stand p T => s.term p < T
  | .grant q c => s.role q = .follower ∧ s.vote (s.term q) q = none ∧
      ∃ l, s.vote (s.term q) c = some (c, l) ∧ UpToDate tm l (s.log q)
  | .elect p => s.role p = .candidate ∧ ∃ V, s.Elects members (s.term p) p V
  | .append p e => s.role p = .leader ∧ tm e = s.term p
  | .adopt q k => s.role q = .follower ∧ (∃ p, s.elected (s.term q) = some p) ∧
      (s.base (s.term q)).length ≤ k ∧ k ≤ (s.tlog (s.term q)).length
  | .commit _ _ => True

/-- What keeps committed entries: a peer gives up no entry of the leader it follows, and commits
forward and inside what a quorum took over. -/
def Act.Careful (s : State P E) : Act P E → Prop
  | .adopt q k => ∀ i e, k ≤ i → (s.log q)[i]? = some e → tm e ≠ s.term q
  | .commit q i => s.commit q ≤ i ∧ i < (s.log q).length ∧
      s.Covered tm members (s.term q) ((s.log q).take (i + 1))
  | _ => True

/-- Sequences of guarded actions that are careful if `D` holds. -/
inductive Steps (D : Prop) : State P E → State P E → Prop
  | refl (s : State P E) : Steps D s s
  | tail {s t : State P E} {a : Act P E} (steps : Steps D s t) (guard : a.Guard tm members t)
      (careful : D → a.Careful tm members t) : Steps D s (t.act a)

variable {tm members}

/-- A record of one peer in one term changes no other. -/
theorem update_update_apply {α : Type} (f : Nat → P → α) (T : Nat) (q : P) (v : α) (U : Nat)
    (a : P) : Function.update f T (Function.update (f T) q v) U a =
      if U = T ∧ a = q then v else f U a := by
  rcases eq_or_ne U T with rfl | hU
  · simp [Function.update_apply]
  · simp [hU]

/-- A first record of one peer in one term removes none. -/
theorem update_keeps {α : Type} {f : Nat → P → Option α} {T : Nat} {q : P} (fresh : f T q = none)
    {w : α} {U : Nat} {a : P} {v : α} (hv : f U a = some v) :
    Function.update f T (Function.update (f T) q (some w)) U a = some v := by
  rw [update_update_apply, if_neg, hv]
  rintro ⟨rfl, rfl⟩
  rw [fresh] at hv
  exact nomatch hv

/-- A record is the new one or an old one. -/
theorem update_cases {α : Type} {f : Nat → P → Option α} {T : Nat} {q : P} {w : α} {U : Nat}
    {a : P} {v : α} (hv : Function.update f T (Function.update (f T) q (some w)) U a = some v) :
    (U = T ∧ a = q ∧ v = w) ∨ f U a = some v := by
  rw [update_update_apply] at hv
  split at hv
  · next h => exact Or.inl ⟨h.1, h.2, (Option.some.inj hv).symm⟩
  · exact Or.inr hv

/-- An action changes nothing of the peers that do not act. -/
theorem State.act_of_ne (s : State P E) {a : Act P E} {q : P} (h : q ≠ a.actor) :
    (s.act a).term q = s.term q ∧ (s.act a).role q = s.role q ∧ (s.act a).log q = s.log q ∧
      (s.act a).commit q = s.commit q ∧ ∀ T, (s.act a).vote T q = s.vote T q := by
  cases a with
  | stand p T | grant p c =>
    replace h : q ≠ p := h
    simp [State.act, update_update_apply, h]
  | bump p | elect p | append p | adopt p | commit p =>
    replace h : q ≠ p := h
    simp [State.act, h]

/-- One action is a sequence. -/
theorem Steps.single {D : Prop} {s : State P E} {a : Act P E} (guard : a.Guard tm members s)
    (careful : D → a.Careful tm members s) : Steps tm members D s (s.act a) :=
  (Steps.refl s).tail guard careful

/-- Sequences compose. -/
theorem Steps.trans {D : Prop} {s t u : State P E} (st : Steps tm members D s t)
    (tu : Steps tm members D t u) : Steps tm members D s u := by
  induction tu with
  | refl => exact st
  | tail _ guard careful ih => exact ih.tail guard careful

/-- Being up to date is reflexive. -/
theorem UpToDate.refl (l : List E) : UpToDate tm l l := Or.inr ⟨rfl, Nat.le_refl _⟩

/-- An entry that stands well is in the longest log of its term. -/
theorem Ok.getElem? {tlog : Nat → List E} {l : List E} (h : Ok tm tlog l) {i : Nat} {e : E}
    (he : l[i]? = some e) : (tlog (tm e))[i]? = some e := by
  have ht : (l.take (i + 1))[i]? = some e := by rw [List.getElem?_take_of_lt (Nat.lt_succ_self i), he]
  rw [h i e he, List.getElem?_take_of_lt (Nat.lt_succ_self i)] at ht
  exact ht

/-- Standing well passes to prefixes. -/
theorem Ok.of_isPrefix {tlog : Nat → List E} {l l' : List E} (h : Ok tm tlog l) (hp : l' <+: l) :
    Ok tm tlog l' := by
  intro i e he
  have hi : i + 1 ≤ l'.length := (List.getElem?_eq_some_iff.mp he).1
  rw [← h i e (getElem?_of_isPrefix hp he), take_eq_of_isPrefix hp hi]

/-- Standing well survives growth of the longest logs. -/
theorem Ok.mono {tlog tlog' : Nat → List E} {l : List E} (h : Ok tm tlog l)
    (hg : ∀ T, tlog T <+: tlog' T) : Ok tm tlog' l := by
  intro i e he
  have hi : i + 1 ≤ (tlog (tm e)).length := (List.getElem?_eq_some_iff.mp (h.getElem? he)).1
  rw [h i e he]
  obtain ⟨r, hr⟩ := hg (tm e)
  rw [← hr, List.take_append_of_le_length hi]

end TrustedDcr.Theory.Raft
