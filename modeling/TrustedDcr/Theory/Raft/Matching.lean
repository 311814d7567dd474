import TrustedDcr.Theory.Raft.Model

/-!
# One leader a term and matching logs

`Sound` collects what guarded actions maintain: a term's elected leader is unique
because two electing quorums share a voter, and every log is, entry by entry, a
part of the longest log of that entry's term. What holds of the longest logs and
their prefixes therefore holds of every log (`Sound.of_tlog`).
-/

namespace TrustedDcr.Theory.Raft

variable {P E : Type} (tm : E → Nat) (members : Finset P)

/-- The invariant of guarded actions. -/
structure Sound (s : State P E) : Prop where
  vote_le : ∀ {T q v}, s.vote T q = some v → T ≤ s.term q
  vote_pos : ∀ {T q v}, s.vote T q = some v → 0 < T
  elected_le : ∀ {T p}, s.elected T = some p → T ≤ s.term p
  leading : ∀ {p}, s.role p = .leader → s.elected (s.term p) = some p
  elected_leads : ∀ {T p}, s.elected T = some p → s.term p = T → s.role p = .leader
  standing : ∀ {p}, s.role p = .candidate → s.vote (s.term p) p = some (p, s.log p)
  self_vote : ∀ {T p l}, s.vote T p = some (p, l) → ∀ e ∈ l, tm e < T
  up_to_date : ∀ {T q c l}, s.vote T q = some (c, l) →
    ∃ l', s.vote T c = some (c, l') ∧ UpToDate tm l' l
  quorum : ∀ {T p}, s.elected T = some p → 0 < T → ∃ V, s.Elects members T p V
  base_vote : ∀ {T p}, s.elected T = some p → 0 < T → s.vote T p = some (p, s.base T)
  leader_log : ∀ {p}, s.role p = .leader → s.tlog (s.term p) = s.log p
  ok_log : ∀ q, Ok tm s.tlog (s.log q)
  ok_vote : ∀ {T q c l}, s.vote T q = some (c, l) → Ok tm s.tlog l
  ok_tlog : ∀ T, Ok tm s.tlog (s.tlog T)
  terms : ∀ q, ∀ e ∈ s.log q, tm e ≤ s.term q
  base_isPrefix : ∀ T, s.base T <+: s.tlog T
  base_lt : ∀ T, ∀ e ∈ s.base T, tm e < T
  own : ∀ {T i e}, (s.base T).length ≤ i → (s.tlog T)[i]? = some e → tm e = T
  unelected : ∀ {T}, 0 < T → s.elected T = none → s.tlog T = []
  acked_le : ∀ T q, s.acked T q ≤ (s.tlog T).length
  acked_future : ∀ {T q}, s.term q < T → s.acked T q = 0

variable {tm members}

/-- Votes elect at most one peer a term. -/
theorem State.Elects.unique {s : State P E} {T : Nat} {p p' : P} {V V' : Finset P}
    (h : s.Elects members T p V) (h' : s.Elects members T p' V') : p = p' := by
  classical
  have hc := Finset.card_union_add_card_inter V V'
  have hu := Finset.card_le_card (Finset.union_subset h.1 h'.1)
  have hi : 0 < (V ∩ V').card := by
    have := h.2.1
    have := h'.2.1
    omega
  obtain ⟨v, hv⟩ := Finset.card_pos.mp hi
  obtain ⟨l, hl⟩ := h.2.2 v (Finset.mem_inter.mp hv).1
  obtain ⟨l', hl'⟩ := h'.2.2 v (Finset.mem_inter.mp hv).2
  rw [hl, Option.some.injEq, Prod.mk.injEq] at hl'
  exact hl'.1

/-- An election stands when votes are only added. -/
theorem State.Elects.mono {s t : State P E} {T : Nat} {p : P} {V : Finset P}
    (h : s.Elects members T p V) (hv : ∀ q v, s.vote T q = some v → t.vote T q = some v) :
    t.Elects members T p V := by
  refine ⟨h.1, h.2.1, fun v hvV ↦ ?_⟩
  obtain ⟨l, hl⟩ := h.2.2 v hvV
  exact ⟨l, hv v _ hl⟩

namespace Sound

variable {s : State P E}

/-- A leader's log holds no entry of a term later than its own. -/
theorem tlog_le (h : Sound tm members s) {T i : Nat} {e : E} (he : (s.tlog T)[i]? = some e) :
    tm e ≤ T := by
  by_cases hi : i < (s.base T).length
  · rw [getElem?_eq_of_isPrefix (h.base_isPrefix T) hi] at he
    exact Nat.le_of_lt (h.base_lt T e (List.mem_of_getElem? he))
  · exact Nat.le_of_eq (h.own (Nat.not_lt.mp hi) he)

/-- A candidate's term has no leader yet if a quorum voted for it. -/
theorem elected_eq_none (h : Sound tm members s) {p : P} (hp : s.role p = .candidate)
    {V : Finset P} (hV : s.Elects members (s.term p) p V) : s.elected (s.term p) = none := by
  cases he : s.elected (s.term p) with
  | none => rfl
  | some p' =>
    obtain ⟨V', hV'⟩ := h.quorum he (h.vote_pos (h.standing hp))
    obtain rfl : p = p' := hV.unique hV'
    have hl := h.elected_leads he rfl
    rw [hp] at hl
    exact absurd hl (by decide)

/-- Two leaders of one term are one peer. -/
theorem leader_unique (h : Sound tm members s) {p q : P} (hp : s.role p = .leader)
    (hq : s.role q = .leader) (ht : s.term p = s.term q) : p = q := by
  have he := h.leading hp
  rw [ht, h.leading hq, Option.some.injEq] at he
  exact he.symm

/-- What holds of the longest logs and of their prefixes holds of every log. -/
theorem of_tlog (h : Sound tm members s) {Φ : List E → Prop} (nil : Φ [])
    (mono : ∀ l l', l' <+: l → Φ l → Φ l') (ht : ∀ T, Φ (s.tlog T)) (q : P) : Φ (s.log q) := by
  cases hl : (s.log q).getLast? with
  | none =>
    rw [List.getLast?_eq_none_iff.mp hl]
    exact nil
  | some e =>
    rw [List.getLast?_eq_getElem?] at hl
    have hk := h.ok_log q _ e hl
    have hlen := (List.getElem?_eq_some_iff.mp hl).1
    rw [Nat.sub_add_cancel (by omega), List.take_length] at hk
    rw [hk]
    exact mono _ _ (List.take_prefix _ _) (ht _)

/-- The start is sound. -/
theorem init [DecidableEq P] {root : List E} (hroot : ∀ e ∈ root, tm e = 0) (boss : Option P) :
    Sound tm members (State.init root boss) := by
  have ok : Ok tm (fun T ↦ if T = 0 then root else []) root := by
    intro i e he
    rw [hroot e (List.mem_of_getElem? he)]
    rfl
  have leader {p : P} (hp : (State.init root boss).role p = .leader) : boss = some p := by
    by_contra hn
    rw [show (State.init root boss).role p = .follower from if_neg hn] at hp
    exact absurd hp (by decide)
  have elected {T : Nat} (hT : 0 < T) : (State.init root boss).elected T = none :=
    if_neg (by omega)
  have tlog {T : Nat} (hT : 0 < T) : (State.init root boss).tlog T = [] := if_neg (by omega)
  constructor
  case vote_le | vote_pos | self_vote | up_to_date | ok_vote => exact fun hv ↦ nomatch hv
  case elected_le =>
    intro T p he
    by_contra hT
    rw [elected (by omega)] at he
    exact nomatch he
  case leading => exact fun hp ↦ leader hp
  case elected_leads =>
    intro T p he ht
    obtain rfl : 0 = T := ht
    exact if_pos he
  case standing =>
    intro p hp
    simp only [State.init] at hp
    split at hp <;> exact absurd hp (by decide)
  case quorum | base_vote =>
    intro T p he hT
    rw [elected hT] at he
    exact nomatch he
  case leader_log => exact fun _ ↦ rfl
  case ok_log => exact fun _ ↦ ok
  case ok_tlog =>
    intro T
    rcases Nat.eq_zero_or_pos T with rfl | hT
    · exact ok
    · rw [tlog hT]
      exact fun _ _ he ↦ nomatch he
  case terms => exact fun _ e he ↦ Nat.le_of_eq (hroot e he)
  case base_isPrefix => exact fun _ ↦ List.nil_prefix
  case base_lt => exact fun _ _ he ↦ nomatch he
  case own =>
    intro T i e _ he
    rcases Nat.eq_zero_or_pos T with rfl | hT
    · exact hroot e (List.mem_of_getElem? he)
    · rw [tlog hT] at he
      exact nomatch he
  case unelected => exact fun hT _ ↦ tlog hT
  case acked_le =>
    intro T q
    rcases Nat.eq_zero_or_pos T with rfl | hT
    · exact Nat.le_refl _
    · rw [show (State.init root boss).acked T q = 0 from if_neg (by omega)]
      exact Nat.zero_le _
  case acked_future => exact fun hT ↦ if_neg (by have : 0 < _ := hT; omega)

variable [DecidableEq P]

/-- A higher term turns its peer into a follower. -/
theorem bump (h : Sound tm members s) {q : P} {T : Nat} (hT : s.term q < T) :
    Sound tm members (s.act (.bump q T)) := by
  have grows (p : P) : s.term p ≤ (s.act (.bump q T)).term p := by
    rcases eq_or_ne p q with rfl | hp
    · simpa [State.act] using Nat.le_of_lt hT
    · simp [State.act, hp]
  have other {p : P} {r : Role} (hr : r ≠ .follower) (hp : (s.act (.bump q T)).role p = r) :
      p ≠ q ∧ s.role p = r := by
    rcases eq_or_ne p q with rfl | hpq
    · simp only [State.act, Function.update_self] at hp
      exact absurd hp.symm hr
    · exact ⟨hpq, by simpa [State.act, hpq] using hp⟩
  constructor
  case vote_le => exact fun hv ↦ (h.vote_le hv).trans (grows _)
  case elected_le => exact fun he ↦ (h.elected_le he).trans (grows _)
  case leading =>
    intro p hp
    obtain ⟨hpq, hp⟩ := other (by decide) hp
    simpa [State.act, hpq] using h.leading hp
  case elected_leads =>
    intro U p he ht
    rcases eq_or_ne p q with rfl | hpq
    · have := h.elected_le he
      simp only [State.act, Function.update_self] at ht
      omega
    · simpa [State.act, hpq] using h.elected_leads he (by simpa [State.act, hpq] using ht)
  case standing =>
    intro p hp
    obtain ⟨hpq, hp⟩ := other (by decide) hp
    simpa [State.act, hpq] using h.standing hp
  case leader_log =>
    intro p hp
    obtain ⟨hpq, hp⟩ := other (by decide) hp
    simpa [State.act, hpq] using h.leader_log hp
  case terms => exact fun p e he ↦ (h.terms p e he).trans (grows p)
  case acked_future => exact fun hT ↦ h.acked_future ((grows _).trans_lt hT)
  all_goals first
    | exact h.vote_pos | exact h.self_vote | exact h.up_to_date | exact h.quorum
    | exact h.base_vote | exact h.ok_log | exact h.ok_vote | exact h.ok_tlog
    | exact h.base_isPrefix | exact h.base_lt | exact h.own | exact h.unelected | exact h.acked_le

/-- Standing for a higher term records the vote for oneself. -/
theorem stand (h : Sound tm members s) {p : P} {T : Nat} (hT : s.term p < T) :
    Sound tm members (s.act (.stand p T)) := by
  have grows (q : P) : s.term q ≤ (s.act (.stand p T)).term q := by
    rcases eq_or_ne q p with rfl | hp
    · simpa [State.act] using Nat.le_of_lt hT
    · simp [State.act, hp]
  have fresh : s.vote T p = none := by
    cases hv : s.vote T p with
    | none => rfl
    | some v => exact absurd (h.vote_le hv) (by omega)
  have keeps {U : Nat} {q : P} {v : P × List E} (hv : s.vote U q = some v) :
      (s.act (.stand p T)).vote U q = some v := update_keeps fresh hv
  have other {q : P} (hq : (s.act (.stand p T)).role q = .leader) : q ≠ p ∧ s.role q = .leader := by
    rcases eq_or_ne q p with rfl | hqp
    · simp only [State.act, Function.update_self] at hq
      exact absurd hq (by decide)
    · exact ⟨hqp, by simpa [State.act, hqp] using hq⟩
  constructor
  case vote_le =>
    intro U q v hv
    rcases update_cases hv with ⟨rfl, rfl, -⟩ | hv
    · simp [State.act]
    · exact (h.vote_le hv).trans (grows q)
  case vote_pos =>
    intro U q v hv
    rcases update_cases hv with ⟨rfl, -, -⟩ | hv
    · omega
    · exact h.vote_pos hv
  case elected_le => exact fun he ↦ (h.elected_le he).trans (grows _)
  case leading =>
    intro q hq
    obtain ⟨hqp, hq⟩ := other hq
    simpa [State.act, hqp] using h.leading hq
  case elected_leads =>
    intro U q he ht
    rcases eq_or_ne q p with rfl | hqp
    · have := h.elected_le he
      simp only [State.act, Function.update_self] at ht
      omega
    · simpa [State.act, hqp] using h.elected_leads he (by simpa [State.act, hqp] using ht)
  case standing =>
    intro q hq
    rcases eq_or_ne q p with rfl | hqp
    · simp [State.act]
    · have := keeps (h.standing (by simpa [State.act, hqp] using hq))
      rwa [show (s.act (.stand p T)).term q = s.term q by simp [State.act, hqp]]
  case self_vote =>
    intro U q l hv e he
    rcases update_cases hv with ⟨rfl, rfl, hvl⟩ | hv
    · have := h.terms q e ((Prod.mk.inj hvl).2 ▸ he)
      omega
    · exact h.self_vote hv e he
  case up_to_date =>
    intro U q c l hv
    rcases update_cases hv with ⟨rfl, rfl, hvl⟩ | hv
    · obtain ⟨rfl, rfl⟩ := Prod.mk.inj hvl
      exact ⟨_, hv, UpToDate.refl _⟩
    · obtain ⟨l', hl', hu⟩ := h.up_to_date hv
      exact ⟨l', keeps hl', hu⟩
  case quorum =>
    intro U q he hU
    obtain ⟨V, hV⟩ := h.quorum he hU
    exact ⟨V, hV.mono fun _ _ ↦ keeps⟩
  case base_vote => exact fun he hU ↦ keeps (h.base_vote he hU)
  case leader_log =>
    intro q hq
    obtain ⟨hqp, hq⟩ := other hq
    simpa [State.act, hqp] using h.leader_log hq
  case ok_vote =>
    intro U q c l hv
    rcases update_cases hv with ⟨-, -, hvl⟩ | hv
    · exact (Prod.mk.inj hvl).2 ▸ h.ok_log p
    · exact h.ok_vote hv
  case terms => exact fun q e he ↦ (h.terms q e he).trans (grows q)
  case acked_future => exact fun hT ↦ h.acked_future ((grows _).trans_lt hT)
  all_goals first
    | exact h.ok_log | exact h.ok_tlog | exact h.base_isPrefix | exact h.base_lt | exact h.own
    | exact h.unelected | exact h.acked_le

/-- A vote is granted once a term, to a candidate at least as up to date. -/
theorem grant (h : Sound tm members s) {q c : P} (hg : (Act.grant q c : Act P E).Guard tm members s) :
    Sound tm members (s.act (.grant q c)) := by
  obtain ⟨-, fresh, l, hl, hu⟩ := hg
  have hqc : c ≠ q := by
    rintro rfl
    rw [fresh] at hl
    exact nomatch hl
  have keeps {U : Nat} {a : P} {v : P × List E} (hv : s.vote U a = some v) :
      (s.act (.grant q c)).vote U a = some v := update_keeps fresh hv
  constructor
  case vote_le =>
    intro U a v hv
    rcases update_cases hv with ⟨rfl, rfl, -⟩ | hv
    · exact Nat.le_refl _
    · exact h.vote_le hv
  case vote_pos =>
    intro U a v hv
    rcases update_cases hv with ⟨rfl, -, -⟩ | hv
    · exact h.vote_pos hl
    · exact h.vote_pos hv
  case standing => exact fun ha ↦ keeps (h.standing ha)
  case self_vote =>
    intro U a l hv
    rcases update_cases hv with ⟨-, rfl, hvl⟩ | hv
    · exact absurd (Prod.mk.inj hvl).1.symm hqc
    · exact h.self_vote hv
  case up_to_date =>
    intro U a b l' hv
    rcases update_cases hv with ⟨rfl, -, hvl⟩ | hv
    · obtain ⟨rfl, rfl⟩ := Prod.mk.inj hvl
      exact ⟨l, keeps hl, hu⟩
    · obtain ⟨l'', hl'', hu⟩ := h.up_to_date hv
      exact ⟨l'', keeps hl'', hu⟩
  case quorum =>
    intro U a he hU
    obtain ⟨V, hV⟩ := h.quorum he hU
    exact ⟨V, hV.mono fun _ _ ↦ keeps⟩
  case base_vote => exact fun he hU ↦ keeps (h.base_vote he hU)
  case ok_vote =>
    intro U a b l' hv
    rcases update_cases hv with ⟨-, -, hvl⟩ | hv
    · exact (Prod.mk.inj hvl).2 ▸ h.ok_log q
    · exact h.ok_vote hv
  all_goals first
    | exact h.elected_le | exact h.leading | exact h.elected_leads | exact h.leader_log
    | exact h.ok_log | exact h.ok_tlog | exact h.terms | exact h.base_isPrefix | exact h.base_lt
    | exact h.own | exact h.unelected | exact h.acked_le | exact h.acked_future

/-- A candidate with a quorum takes the lead with the log it stood with. -/
theorem elect (h : Sound tm members s) {p : P} (hp : s.role p = .candidate) {V : Finset P}
    (hV : s.Elects members (s.term p) p V) : Sound tm members (s.act (.elect p)) := by
  have hvote := h.standing hp
  have hpos := h.vote_pos hvote
  have fresh := h.elected_eq_none hp hV
  have bare := h.unelected hpos fresh
  have grows (T : Nat) : s.tlog T <+: (s.act (.elect p)).tlog T := by
    rcases eq_or_ne T (s.term p) with rfl | hT
    · rw [bare]
      exact List.nil_prefix
    · simp [State.act, hT]
  have other {q : P} {r : Role} (hq : (s.act (.elect p)).role q = r) :
      (q = p ∧ r = .leader) ∨ (q ≠ p ∧ s.role q = r) := by
    rcases eq_or_ne q p with rfl | hqp
    · simp only [State.act, Function.update_self] at hq
      exact Or.inl ⟨rfl, hq.symm⟩
    · exact Or.inr ⟨hqp, by simpa [State.act, hqp] using hq⟩
  have away {q : P} (hq : s.role q = .leader) : s.term q ≠ s.term p := by
    intro ht
    have he := h.leading hq
    rw [ht, fresh] at he
    cases he
  have elected {T : Nat} {q : P} (he : (s.act (.elect p)).elected T = some q) :
      (T = s.term p ∧ q = p) ∨ (T ≠ s.term p ∧ s.elected T = some q) := by
    rcases eq_or_ne T (s.term p) with hT | hT
    · simp only [State.act, hT, Function.update_self, Option.some.injEq] at he
      exact Or.inl ⟨hT, he.symm⟩
    · exact Or.inr ⟨hT, by simpa [State.act, hT] using he⟩
  constructor
  case elected_le =>
    intro T q he
    rcases elected he with ⟨rfl, rfl⟩ | ⟨-, he⟩
    · exact Nat.le_refl _
    · exact h.elected_le he
  case leading =>
    intro q hq
    rcases other hq with ⟨rfl, -⟩ | ⟨-, hq⟩
    · simp [State.act]
    · simpa [State.act, away hq] using h.leading hq
  case elected_leads =>
    intro T q he ht
    rcases elected he with ⟨-, rfl⟩ | ⟨-, he⟩
    · simp [State.act]
    · have hq := h.elected_leads he ht
      rcases eq_or_ne q p with rfl | hqp
      · simp [State.act]
      · simpa [State.act, hqp] using hq
  case standing =>
    intro q hq
    rcases other hq with ⟨-, hr⟩ | ⟨-, hq⟩
    · cases hr
    · exact h.standing hq
  case quorum =>
    intro T q he hT
    rcases elected he with ⟨rfl, rfl⟩ | ⟨-, he⟩
    · exact ⟨V, hV⟩
    · exact h.quorum he hT
  case base_vote =>
    intro T q he hT
    rcases elected he with ⟨rfl, rfl⟩ | ⟨hne, he⟩
    · simpa [State.act] using hvote
    · simpa [State.act, hne] using h.base_vote he hT
  case leader_log =>
    intro q hq
    rcases other hq with ⟨rfl, -⟩ | ⟨-, hq⟩
    · simp [State.act]
    · simpa [State.act, away hq] using h.leader_log hq
  case ok_log => exact fun q ↦ (h.ok_log q).mono grows
  case ok_vote => exact fun hv ↦ (h.ok_vote hv).mono grows
  case ok_tlog =>
    intro T
    rcases eq_or_ne T (s.term p) with rfl | hT
    · simpa [State.act] using (h.ok_log p).mono grows
    · simpa [State.act, hT] using (h.ok_tlog T).mono grows
  case base_isPrefix =>
    intro T
    rcases eq_or_ne T (s.term p) with rfl | hT
    · simp [State.act]
    · simpa [State.act, hT] using h.base_isPrefix T
  case base_lt =>
    intro T e he
    rcases eq_or_ne T (s.term p) with rfl | hT
    · exact h.self_vote hvote e (by simpa [State.act] using he)
    · exact h.base_lt T e (by simpa [State.act, hT] using he)
  case own =>
    intro T i e hi he
    rcases eq_or_ne T (s.term p) with rfl | hT
    · simp only [State.act, Function.update_self] at hi he
      have := (List.getElem?_eq_some_iff.mp he).1
      omega
    · exact h.own (by simpa [State.act, hT] using hi) (by simpa [State.act, hT] using he)
  case unelected =>
    intro T hT he
    rcases eq_or_ne T (s.term p) with rfl | hne
    · simp [State.act] at he
    · simpa [State.act, hne] using h.unelected hT (by simpa [State.act, hne] using he)
  case acked_le =>
    intro T q
    have hle := h.acked_le T q
    simp only [State.act, update_update_apply]
    rcases eq_or_ne T (s.term p) with rfl | hT
    · rw [bare, List.length_nil] at hle
      split
      · simp
      · exact hle.trans (Nat.zero_le _)
    · simpa [hT] using hle
  case acked_future =>
    intro T q hT
    simp only [State.act, update_update_apply] at hT ⊢
    rw [if_neg, h.acked_future hT]
    rintro ⟨rfl, rfl⟩
    exact absurd hT (Nat.lt_irrefl _)
  all_goals first
    | exact h.vote_le | exact h.vote_pos | exact h.self_vote | exact h.up_to_date | exact h.terms

/-- A leader adds an entry of its own term. -/
theorem append (h : Sound tm members s) {p : P} {e : E} (hp : s.role p = .leader)
    (he : tm e = s.term p) : Sound tm members (s.act (.append p e)) := by
  have hlead := h.leading hp
  have hlog := h.leader_log hp
  have grows (T : Nat) : s.tlog T <+: (s.act (.append p e)).tlog T := by
    rcases eq_or_ne T (s.term p) with rfl | hT
    · simp [State.act, hlog]
    · simp [State.act, hT]
  have away {q : P} (hq : s.role q = .leader) (hqp : q ≠ p) : s.term q ≠ s.term p :=
    fun ht ↦ hqp (h.leader_unique hq hp ht)
  have longer : Ok tm (s.act (.append p e)).tlog (s.log p ++ [e]) := by
    intro i a ha
    by_cases hi : i < (s.log p).length
    · rw [List.getElem?_append_left hi] at ha
      rw [List.take_append_of_le_length hi]
      exact (h.ok_log p).mono grows i a ha
    · have hl := (List.getElem?_eq_some_iff.mp ha).1
      rw [List.length_append, List.length_singleton] at hl
      obtain rfl : i = (s.log p).length := by omega
      rw [List.getElem?_concat_length, Option.some.injEq] at ha
      subst ha
      simp [State.act, he]
  constructor
  case standing =>
    intro q hq
    rcases eq_or_ne q p with rfl | hqp
    · exact absurd (hp.symm.trans hq) (by decide)
    · simpa [State.act, hqp] using h.standing hq
  case leader_log =>
    intro q hq
    rcases eq_or_ne q p with rfl | hqp
    · simp [State.act]
    · simpa [State.act, hqp, away hq hqp] using h.leader_log hq
  case ok_log =>
    intro q
    rcases eq_or_ne q p with rfl | hqp
    · simpa [State.act] using longer
    · simpa [State.act, hqp] using (h.ok_log q).mono grows
  case ok_vote => exact fun hv ↦ (h.ok_vote hv).mono grows
  case ok_tlog =>
    intro T
    rcases eq_or_ne T (s.term p) with rfl | hT
    · simpa [State.act] using longer
    · simpa [State.act, hT] using (h.ok_tlog T).mono grows
  case terms =>
    intro q a ha
    rcases eq_or_ne q p with rfl | hqp
    · have ha : a ∈ s.log q ++ [e] := by simpa [State.act] using ha
      rcases List.mem_append.mp ha with ha | ha
      · exact h.terms q a ha
      · exact Nat.le_of_eq (List.mem_singleton.mp ha ▸ he)
    · exact h.terms q a (by simpa [State.act, hqp] using ha)
  case base_isPrefix => exact fun T ↦ (h.base_isPrefix T).trans (grows T)
  case own =>
    intro T i a hi ha
    rcases eq_or_ne T (s.term p) with rfl | hT
    · simp only [State.act, Function.update_self] at ha
      by_cases hl : i < (s.log p).length
      · rw [List.getElem?_append_left hl, ← hlog] at ha
        exact h.own hi ha
      · have := List.mem_of_getElem? ((List.getElem?_append_right (by omega)).symm.trans ha)
        exact List.mem_singleton.mp this ▸ he
    · exact h.own hi (by simpa [State.act, hT] using ha)
  case unelected =>
    intro T hT hn
    rcases eq_or_ne T (s.term p) with rfl | hne
    · exact absurd (hlead.symm.trans hn) (by simp)
    · simpa [State.act, hne] using h.unelected hT hn
  case acked_le =>
    intro T q
    have hle := (h.acked_le T q).trans (grows T).length_le
    simp only [State.act, update_update_apply] at hle ⊢
    split
    · next hT => simp [hT.1]
    · exact hle
  case acked_future =>
    intro T q hT
    simp only [State.act, update_update_apply] at hT ⊢
    rw [if_neg, h.acked_future hT]
    rintro ⟨rfl, rfl⟩
    exact absurd hT (Nat.lt_irrefl _)
  all_goals first
    | exact h.vote_le | exact h.vote_pos | exact h.elected_le | exact h.leading
    | exact h.elected_leads | exact h.self_vote | exact h.up_to_date | exact h.quorum
    | exact h.base_vote | exact h.base_lt

/-- A follower takes over the start of the log of its term's leader. -/
theorem adopt (h : Sound tm members s) {q : P} {k : Nat} (hq : s.role q = .follower)
    (hk : k ≤ (s.tlog (s.term q)).length) :
    Sound tm members (s.act (.adopt q k)) := by
  have other {p : P} {r : Role} (hr : r ≠ .follower) (hp : s.role p = r) : p ≠ q := by
    rintro rfl
    exact hr (hp.symm.trans hq)
  constructor
  case standing =>
    intro p hp
    simpa [State.act, other (by decide) hp] using h.standing hp
  case leader_log =>
    intro p hp
    simpa [State.act, other (by decide) hp] using h.leader_log hp
  case ok_log =>
    intro p
    rcases eq_or_ne p q with rfl | hpq
    · simpa [State.act] using (h.ok_tlog _).of_isPrefix (List.take_prefix k _)
    · simpa [State.act, hpq] using h.ok_log p
  case terms =>
    intro p e he
    rcases eq_or_ne p q with rfl | hpq
    · obtain ⟨i, hi⟩ := List.mem_iff_getElem?.mp
        (List.mem_of_mem_take (by simpa [State.act] using he))
      exact h.tlog_le hi
    · exact h.terms p e (by simpa [State.act, hpq] using he)
  case acked_le =>
    intro T p
    have hle := h.acked_le T p
    simp only [State.act, update_update_apply]
    split
    · next hT =>
      obtain ⟨rfl, rfl⟩ := hT
      exact Nat.max_le.mpr ⟨hle, hk⟩
    · exact hle
  case acked_future =>
    intro T p hT
    simp only [State.act, update_update_apply] at hT ⊢
    rw [if_neg, h.acked_future hT]
    rintro ⟨rfl, rfl⟩
    exact absurd hT (Nat.lt_irrefl _)
  all_goals first
    | exact h.vote_le | exact h.vote_pos | exact h.elected_le | exact h.leading
    | exact h.elected_leads | exact h.self_vote | exact h.up_to_date | exact h.quorum
    | exact h.base_vote | exact h.ok_vote | exact h.ok_tlog | exact h.base_isPrefix
    | exact h.base_lt | exact h.own | exact h.unelected

/-- Every guarded action keeps the state sound. -/
theorem act (h : Sound tm members s) {a : Act P E} (hg : a.Guard tm members s) :
    Sound tm members (s.act a) := by
  cases a with
  | bump q T => exact h.bump hg
  | stand p T => exact h.stand hg
  | grant q c => exact h.grant hg
  | elect p => exact h.elect hg.1 hg.2.choose_spec
  | append p e => exact h.append hg.1 hg.2
  | adopt q k => exact h.adopt hg.1 hg.2.2.2
  | commit q i => exact ⟨h.vote_le, h.vote_pos, h.elected_le, h.leading, h.elected_leads,
      h.standing, h.self_vote, h.up_to_date, h.quorum, h.base_vote, h.leader_log, h.ok_log,
      h.ok_vote, h.ok_tlog, h.terms, h.base_isPrefix, h.base_lt, h.own, h.unelected, h.acked_le,
      h.acked_future⟩

/-- What holds of the longest logs and their prefixes holds after an action, if it holds of what
the action appends. -/
theorem tlog_act (h : Sound tm members s) {Φ : List E → Prop} (nil : Φ [])
    (mono : ∀ l l', l' <+: l → Φ l → Φ l') (ht : ∀ T, Φ (s.tlog T)) {a : Act P E}
    (ha : ∀ p e, a = .append p e → Φ (s.log p ++ [e])) (T : Nat) : Φ ((s.act a).tlog T) := by
  cases a with
  | bump | stand | grant | adopt | commit => exact ht T
  | elect p =>
    rcases eq_or_ne T (s.term p) with rfl | hT
    · simpa [State.act] using h.of_tlog nil mono ht p
    · simpa [State.act, hT] using ht T
  | append p e =>
    rcases eq_or_ne T (s.term p) with rfl | hT
    · simpa [State.act] using ha p e rfl
    · simpa [State.act, hT] using ht T

/-- Runs of guarded actions keep the state sound. -/
theorem steps {D : Prop} {t : State P E} (h : Sound tm members s)
    (hs : Steps tm members D s t) : Sound tm members t := by
  induction hs with
  | refl => exact h
  | tail _ guard _ ih => exact ih.act guard

/-- An action on a sound state only adds to the records. -/
theorem ext (h : Sound tm members s) {a : Act P E} (hg : a.Guard tm members s) :
    s.Ext (s.act a) := by
  have same (T : Nat) : s.tlog T <+: s.tlog T := List.prefix_rfl
  cases a with
  | bump q T => exact ⟨id, id, fun _ ↦ rfl, same, fun _ _ ↦ Nat.le_refl _⟩
  | commit q i => exact ⟨id, id, fun _ ↦ rfl, same, fun _ _ ↦ Nat.le_refl _⟩
  | grant q c => exact ⟨update_keeps hg.2.1, id, fun _ ↦ rfl, same, fun _ _ ↦ Nat.le_refl _⟩
  | stand p T =>
    have fresh : s.vote T p = none := by
      cases hv : s.vote T p with
      | none => rfl
      | some v => exact absurd (h.vote_le hv) (Nat.not_le.mpr hg)
    exact ⟨update_keeps fresh, id, fun _ ↦ rfl, same, fun _ _ ↦ Nat.le_refl _⟩
  | elect p =>
    obtain ⟨hp, V, hV⟩ := hg
    have fresh := h.elected_eq_none hp hV
    have bare := h.unelected (h.vote_pos (h.standing hp)) fresh
    have late {T : Nat} {q : P} (he : s.elected T = some q) : T ≠ s.term p := by
      rintro rfl
      exact nomatch fresh.symm.trans he
    refine ⟨id, fun he ↦ ?_, fun he ↦ ?_, fun T ↦ ?_, fun T q ↦ ?_⟩
    · simpa [State.act, late he] using he
    · simp [State.act, late he]
    · rcases eq_or_ne T (s.term p) with rfl | hT
      · rw [bare]
        exact List.nil_prefix
      · simp [State.act, hT]
    · have hle := h.acked_le T q
      simp only [State.act, update_update_apply]
      split
      · next hT =>
        rw [hT.1, bare, List.length_nil] at hle
        rw [hT.1]
        omega
      · exact Nat.le_refl _
  | append p e =>
    have hlog := h.leader_log hg.1
    refine ⟨id, id, fun _ ↦ rfl, fun T ↦ ?_, fun T q ↦ ?_⟩
    · rcases eq_or_ne T (s.term p) with rfl | hT
      · simp [State.act, hlog]
      · simp [State.act, hT]
    · have hle := h.acked_le T q
      simp only [State.act, update_update_apply]
      split
      · next hT =>
        rw [hT.1, hlog] at hle
        rw [hT.1]
        omega
      · exact Nat.le_refl _
  | adopt q k =>
    refine ⟨id, id, fun _ ↦ rfl, same, fun T p ↦ ?_⟩
    simp only [State.act, update_update_apply]
    split
    · next hT =>
      rw [hT.1, hT.2]
      exact Nat.le_max_left _ _
    · exact Nat.le_refl _

/-- Runs of guarded actions only add to the records. -/
theorem steps_ext {D : Prop} {t : State P E} (h : Sound tm members s)
    (hs : Steps tm members D s t) : s.Ext t := by
  induction hs with
  | refl => exact ⟨id, id, fun _ ↦ rfl, fun _ ↦ List.prefix_rfl, fun _ _ ↦ Nat.le_refl _⟩
  | tail hs guard _ ih => exact ih.trans ((h.steps hs).ext guard)

end Sound

end TrustedDcr.Theory.Raft
