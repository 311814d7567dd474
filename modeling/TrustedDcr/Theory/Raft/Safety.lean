import TrustedDcr.Theory.Raft.Matching

/-!
# Committed entries stay

`Safe` is what careful actions maintain besides `Sound`: what a peer took over
from a leader is still in its log, unless a later leader was elected without it;
and that cannot be so for committed entries (`Safe.complete`), by induction on
the later term, because a committing quorum and an electing quorum share a peer.
-/

namespace TrustedDcr.Theory.Raft

variable {P E : Type} {tm : E → Nat} {members : Finset P}

/-- The log holds the first `k` entries of the leader of `T`, or a leader was elected without them
in a term up to `U`. -/
def State.Keeps (s : State P E) (T k : Nat) (l : List E) (U : Nat) : Prop :=
  (s.tlog T).take k <+: l ∨
    ∃ T', T < T' ∧ T' ≤ U ∧ (∃ p, s.elected T' = some p) ∧ ¬(s.tlog T).take k <+: s.base T'

variable (tm members)

/-- The invariant of careful actions. -/
structure Safe (s : State P E) : Prop where
  kept : ∀ {T q k}, k ≤ s.acked T q → s.Keeps T k (s.log q) (s.term q)
  kept_vote : ∀ {T' q c l}, s.vote T' q = some (c, l) → ∀ {T k}, T < T' → k ≤ s.acked T q →
    s.Keeps T k l T'
  chosen : ∀ {T' p}, s.elected T' = some p → 0 < T' → ∃ V, s.Elects members T' p V ∧
    ∀ v ∈ V, ∀ {l}, s.vote T' v = some (p, l) → ∀ {T k}, T < T' → k ≤ s.acked T v →
      s.Keeps T k l (T' - 1)
  commit_lt : ∀ q, s.commit q < (s.log q).length
  covered : ∀ q, s.Covered tm members (s.term q) ((s.log q).take (s.commit q + 1))

variable {tm members}

/-- A committing and an electing quorum share a peer. -/
theorem quorums_meet {C V : Finset P} (hC : C ⊆ members) (hV : V ⊆ members)
    (hc : members.card ≤ 2 * C.card) (hv : members.card < 2 * V.card) : ∃ v ∈ C, v ∈ V := by
  classical
  have hi := Finset.card_union_add_card_inter C V
  have hu := Finset.card_le_card (Finset.union_subset hC hV)
  obtain ⟨v, hm⟩ := Finset.card_pos.mp (show 0 < (C ∩ V).card by omega)
  exact ⟨v, (Finset.mem_inter.mp hm).1, (Finset.mem_inter.mp hm).2⟩

/-- A prefix of a list is a prefix of its growth. -/
private theorem take_of_isPrefix {l l' : List E} (h : l <+: l') {k : Nat} (hk : k ≤ l.length) :
    l'.take k = l.take k := by
  obtain ⟨r, rfl⟩ := h
  exact List.take_append_of_le_length hk

/-- What is kept stays kept when records, log and term grow. -/
theorem State.Keeps.mono {s t : State P E} (hx : s.Ext t) {T k U U' : Nat} {l l' : List E}
    (h : s.Keeps T k l U) (hk : k ≤ (s.tlog T).length) (hl : l <+: l') (hU : U ≤ U') :
    t.Keeps T k l' U' := by
  rw [State.Keeps, take_of_isPrefix (hx.tlog T) hk]
  rcases h with h | ⟨T', hT, hTU, ⟨p, hp⟩, hb⟩
  · exact Or.inl (h.trans hl)
  · exact Or.inr ⟨T', hT, hTU.trans hU, ⟨p, hx.elected hp⟩, hx.base hp ▸ hb⟩

/-- A committed length is within its leader's log. -/
theorem State.Committed.le_length {s : State P E} {T k : Nat} (h : s.Committed tm members T k) :
    k ≤ (s.tlog T).length := by
  obtain ⟨⟨e, he, -⟩, -, -⟩ := h
  have := (List.getElem?_eq_some_iff.mp he).1
  omega

/-- What is committed stays committed when records grow. -/
theorem State.Committed.mono {s t : State P E} (hx : s.Ext t) {T k : Nat}
    (h : s.Committed tm members T k) : t.Committed tm members T k := by
  obtain ⟨⟨e, he, ht⟩, hk, C, hC, hc, ha⟩ := h
  exact ⟨⟨e, getElem?_of_isPrefix (hx.tlog T) he, ht⟩, hk, C, hC, hc,
    fun c hcC ↦ (ha c hcC).trans (hx.acked T c)⟩

/-- What is covered stays covered when records grow. -/
theorem State.Covered.mono {s t : State P E} (hx : s.Ext t) {U U' : Nat} {l l' : List E}
    (h : s.Covered tm members U l) (hU : U ≤ U') (hl : l' <+: l) : t.Covered tm members U' l' := by
  obtain ⟨T, hT, k, hk, hp⟩ := h
  refine ⟨T, hT.trans hU, k, hk.mono hx, ?_⟩
  rw [take_of_isPrefix (hx.tlog T) hk.le_length]
  exact hl.trans hp

namespace Sound

variable {s : State P E}

/-- A log that stands well is the start of the longest log of its last entry's term. -/
theorem eq_take {l : List E} (hl : Ok tm s.tlog l) (hne : l ≠ []) :
    l = (s.tlog (lastTm tm l)).take l.length := by
  have hlast : l[l.length - 1]? = some (l.getLast hne) := by
    rw [← List.getLast?_eq_getElem?, List.getLast?_eq_some_getLast hne]
  have hk := hl _ _ hlast
  have hpos := List.length_pos_iff.mpr hne
  rw [Nat.sub_add_cancel hpos, List.take_length] at hk
  rw [lastTm, List.getLast?_eq_some_getLast hne]
  exact hk

/-- A log that stands well and ends in a leader's term extends the log of that leader's
election. -/
theorem base_isPrefix_of_lastTm (h : Sound tm members s) {l : List E} (hl : Ok tm s.tlog l)
    (hne : l ≠ []) : s.base (lastTm tm l) <+: l := by
  have heq := eq_take hl hne
  have hpos := List.length_pos_iff.mpr hne
  have hlen : (s.base (lastTm tm l)).length ≤ l.length := by
    by_contra hlt
    have hlast : l[l.length - 1]? = some (l.getLast hne) := by
      rw [← List.getLast?_eq_getElem?, List.getLast?_eq_some_getLast hne]
    have htm : tm (l.getLast hne) = lastTm tm l := by
      rw [lastTm, List.getLast?_eq_some_getLast hne]
      rfl
    have hin := hl.getElem? hlast
    rw [htm] at hin
    obtain ⟨r, hr⟩ := h.base_isPrefix (lastTm tm l)
    rw [← hr, List.getElem?_append_left (by omega)] at hin
    have := h.base_lt _ _ (List.mem_of_getElem? hin)
    omega
  calc s.base (lastTm tm l) <+: (s.tlog (lastTm tm l)).take l.length :=
        List.prefix_take_iff.mpr ⟨h.base_isPrefix _, hlen⟩
    _ = l := heq.symm

end Sound

namespace Safe

variable {s : State P E}

/-- A later leader was elected with everything committed before. -/
theorem complete (hs : Safe tm members s) (h : Sound tm members s) {T k : Nat}
    (hk : s.Committed tm members T k) {T' : Nat} {p : P} (hT : T < T')
    (hp : s.elected T' = some p) : (s.tlog T).take k <+: s.base T' := by
  induction T' using Nat.strong_induction_on generalizing p with
  | _ T' ih =>
    obtain ⟨⟨e, he, heT⟩, hpos, C, hC, hc, hack⟩ := hk
    have hT' : 0 < T' := by omega
    obtain ⟨V, hV, hkept⟩ := hs.chosen hp hT'
    obtain ⟨v, hvC, hvV⟩ := quorums_meet hC hV.1 hc hV.2.1
    obtain ⟨l, hl⟩ := hV.2.2 v hvV
    -- the shared peer still had the committed entries when it voted
    have hpre : (s.tlog T).take k <+: l := by
      rcases hkept v hvV hl hT (hack v hvC) with hpre | ⟨T'', h1, h2, ⟨p', hp'⟩, hb⟩
      · exact hpre
      · exact absurd (ih T'' (by omega) h1 hp') hb
    have hle : k ≤ (s.tlog T).length := by
      have := (List.getElem?_eq_some_iff.mp he).1
      omega
    have hlen : k ≤ l.length := by
      have := hpre.length_le
      rwa [List.length_take_of_le hle] at this
    have hne : l ≠ [] := List.ne_nil_of_length_pos (by omega)
    have hlT : T ≤ lastTm tm l := by
      have hin : l[k - 1]? = some e := by
        obtain ⟨r, rfl⟩ := hpre
        rw [List.getElem?_append_left (by rw [List.length_take_of_le hle]; omega),
          List.getElem?_take_of_lt (by omega), he]
      rw [Sound.eq_take (h.ok_vote hl) hne, List.getElem?_take_of_lt (by omega)] at hin
      exact heT ▸ h.tlog_le hin
    obtain ⟨l', hl', hup⟩ := h.up_to_date hl
    obtain rfl : s.base T' = l' := by
      have := (h.base_vote hp hT').symm.trans hl'
      simpa using this
    rcases hup with hlt | ⟨heq, hlen'⟩
    · -- the candidate's log ends in a term between, whose leader had the entries
      have hne' : s.base T' ≠ [] := by
        intro hn
        rw [hn] at hlt
        exact Nat.not_lt_zero _ hlt
      have hlast : lastTm tm (s.base T') < T' := by
        have := h.base_lt T' _ (List.getLast_mem hne')
        rwa [lastTm, List.getLast?_eq_some_getLast hne']
      have hok := (h.ok_tlog T').of_isPrefix (h.base_isPrefix T')
      have hel : ∃ p', s.elected (lastTm tm (s.base T')) = some p' := by
        rw [← Option.ne_none_iff_exists']
        intro hn
        have hnil := h.unelected (by omega) hn
        have := Sound.eq_take hok hne'
        rw [hnil, List.take_nil] at this
        exact hne' this
      obtain ⟨p', hp'⟩ := hel
      exact (ih _ hlast (by omega) hp').trans (h.base_isPrefix_of_lastTm hok hne')
    · -- both logs are the start of one leader's log, the candidate's the longer
      have hne' : s.base T' ≠ [] := List.ne_nil_of_length_pos (by omega)
      have hok := (h.ok_tlog T').of_isPrefix (h.base_isPrefix T')
      refine hpre.trans ?_
      rw [Sound.eq_take (h.ok_vote hl) hne, Sound.eq_take hok hne', heq]
      exact List.take_prefix_take_left hlen'

/-- Of two covered logs one extends the other. -/
theorem covered_isPrefix (hs : Safe tm members s) (h : Sound tm members s) {U U' : Nat}
    {l l' : List E} (hl : s.Covered tm members U l) (hl' : s.Covered tm members U' l') :
    l <+: l' ∨ l' <+: l := by
  have elected {T k : Nat} (hk : s.Committed tm members T k) (hT : 0 < T) :
      ∃ p, s.elected T = some p := by
    rw [← Option.ne_none_iff_exists']
    intro hn
    obtain ⟨⟨e, he, -⟩, -, -⟩ := hk
    rw [h.unelected hT hn] at he
    exact nomatch he
  have later {T T' k k' : Nat} (hT : T < T') (hk : s.Committed tm members T k)
      (hk' : s.Committed tm members T' k') : (s.tlog T).take k <+: s.tlog T' := by
    obtain ⟨p, hp⟩ := elected hk' (by omega)
    exact (hs.complete h hk hT hp).trans (h.base_isPrefix T')
  obtain ⟨T, -, k, hk, hp⟩ := hl
  obtain ⟨T', -, k', hk', hp'⟩ := hl'
  rcases Nat.lt_trichotomy T T' with hT | rfl | hT
  · exact List.prefix_or_prefix_of_prefix (hp.trans (later hT hk hk'))
      (hp'.trans (List.take_prefix _ _))
  · exact List.prefix_or_prefix_of_prefix (hp.trans (List.take_prefix _ _))
      (hp'.trans (List.take_prefix _ _))
  · exact List.prefix_or_prefix_of_prefix (hp.trans (List.take_prefix _ _))
      (hp'.trans (later hT hk' hk))

/-- A follower that gives up no entry of its leader keeps its committed prefix. -/
theorem committed_adopt (hs : Safe tm members s) (h : Sound tm members s) {q : P} {k : Nat}
    (hg : (Act.adopt q k : Act P E).Guard tm members s)
    (hc : (Act.adopt q k : Act P E).Careful tm members s) :
    (s.log q).take (s.commit q + 1) <+: (s.tlog (s.term q)).take k := by
  obtain ⟨-, ⟨p, hp⟩, hb, hk⟩ := hg
  have hlt := hs.commit_lt q
  obtain ⟨T, hT, n, hn, hpre⟩ := hs.covered q
  rcases Nat.lt_or_eq_of_le hT with hT | rfl
  · refine (hpre.trans (hs.complete h hn hT hp)).trans ?_
    exact List.prefix_take_iff.mpr ⟨h.base_isPrefix _, hb⟩
  · have hpre' := hpre.trans (List.take_prefix n _)
    by_cases hck : s.commit q + 1 ≤ k
    · exact List.prefix_take_iff.mpr ⟨hpre', (List.length_take_le _ _).trans hck⟩
    · exfalso
      -- the last committed entry would be the leader's own, and given up
      have hin : (s.tlog (s.term q))[s.commit q]? = (s.log q)[s.commit q]? := by
        obtain ⟨r, hr⟩ := hpre'
        rw [← hr, List.getElem?_append_left (by rw [List.length_take_of_le hlt]; omega),
          List.getElem?_take_of_lt (by omega)]
      rw [List.getElem?_eq_getElem hlt] at hin
      exact hc _ _ (by omega) (List.getElem?_eq_getElem hlt) (h.own (by omega) hin)

end Safe

/-- The start is safe. -/
theorem Safe.init [DecidableEq P] {root : List E} (hroot : ∀ e ∈ root, tm e = 0) (hne : root ≠ [])
    (boss : Option P) : Safe tm members (State.init root boss) := by
  have hpos := List.length_pos_iff.mpr hne
  constructor
  case kept =>
    intro T q k hk
    left
    rcases Nat.eq_zero_or_pos T with rfl | hT
    · exact List.take_prefix k root
    · rw [show (State.init root boss).tlog T = [] from if_neg (by omega), List.take_nil]
      exact List.nil_prefix
  case kept_vote => exact fun hv ↦ nomatch hv
  case chosen =>
    intro T p he hT
    rw [show (State.init root boss).elected T = none from if_neg (by omega)] at he
    exact nomatch he
  case commit_lt => exact fun q ↦ hpos
  case covered =>
    intro q
    refine ⟨0, Nat.le_refl _, 1, ⟨⟨root[0], List.getElem?_eq_getElem hpos, ?_⟩, Nat.one_pos,
      members, Finset.Subset.refl _, by omega, fun c _ ↦ hpos⟩, List.prefix_rfl⟩
    exact hroot _ (List.getElem_mem hpos)

/-- What a peer took over in past terms is settled. -/
theorem State.acked_past [DecidableEq P] (s : State P E) (a : Act P E) {T : Nat} {q : P}
    (hT : T < s.term q) : (s.act a).acked T q = s.acked T q := by
  cases a with
  | bump | stand | grant | commit => rfl
  | elect p | append p | adopt p =>
    simp only [State.act, update_update_apply]
    rw [if_neg]
    rintro ⟨rfl, rfl⟩
    exact Nat.lt_irrefl _ hT

/-- Terms do not fall. -/
theorem State.term_le [DecidableEq P] (s : State P E) {a : Act P E}
    (hg : a.Guard tm members s) (q : P) : s.term q ≤ (s.act a).term q := by
  cases a with
  | grant | elect | append | adopt | commit => exact Nat.le_refl _
  | bump p T | stand p T =>
    rcases eq_or_ne q p with rfl | hqp
    · simpa [State.act] using Nat.le_of_lt hg
    · simp [State.act, hqp]

/-- A vote is an old one or records the log of its peer now. -/
theorem State.vote_cases [DecidableEq P] {s : State P E} {a : Act P E}
    (hg : a.Guard tm members s) {T : Nat} {q c : P} {l : List E}
    (hv : (s.act a).vote T q = some (c, l)) :
    s.vote T q = some (c, l) ∨
      (s.term q ≤ T ∧ l = s.log q ∧ (s.act a).acked = s.acked ∧ (s.act a).tlog = s.tlog) := by
  cases a with
  | bump | elect | append | adopt | commit => exact Or.inl hv
  | stand p U =>
    rcases update_cases hv with ⟨rfl, rfl, hl⟩ | hv
    · exact Or.inr ⟨Nat.le_of_lt hg, (Prod.mk.inj hl).2, rfl, rfl⟩
    · exact Or.inl hv
  | grant p b =>
    rcases update_cases hv with ⟨rfl, rfl, hl⟩ | hv
    · exact Or.inr ⟨Nat.le_refl _, (Prod.mk.inj hl).2, rfl, rfl⟩
    · exact Or.inl hv


namespace Safe

variable [DecidableEq P] {s : State P E}

/-- Votes stay safe under every guarded action. -/
theorem kept_vote_act (hs : Safe tm members s) (h : Sound tm members s) {a : Act P E}
    (hg : a.Guard tm members s) {T' : Nat} {q c : P} {l : List E}
    (hv : (s.act a).vote T' q = some (c, l)) {T k : Nat} (hT : T < T')
    (hk : k ≤ (s.act a).acked T q) : (s.act a).Keeps T k l T' := by
  rcases State.vote_cases hg hv with hv | ⟨hle, rfl, hack, -⟩
  · rw [s.acked_past a (hT.trans_le (h.vote_le hv))] at hk
    exact (hs.kept_vote hv hT hk).mono (h.ext hg) (hk.trans (h.acked_le T q)) List.prefix_rfl
      (Nat.le_refl _)
  · rw [hack] at hk
    exact (hs.kept hk).mono (h.ext hg) (hk.trans (h.acked_le T q)) List.prefix_rfl hle

/-- Old elections stay safe under every guarded action. -/
theorem chosen_old (hs : Safe tm members s) (h : Sound tm members s) {a : Act P E}
    (hg : a.Guard tm members s) {T' : Nat} {p : P} (hp : s.elected T' = some p) (hT' : 0 < T') :
    ∃ V, (s.act a).Elects members T' p V ∧ ∀ v ∈ V, ∀ {l}, (s.act a).vote T' v = some (p, l) →
      ∀ {T k}, T < T' → k ≤ (s.act a).acked T v → (s.act a).Keeps T k l (T' - 1) := by
  have hx := h.ext hg
  obtain ⟨V, hV, hkept⟩ := hs.chosen hp hT'
  refine ⟨V, hV.mono fun _ _ ↦ hx.vote, fun v hv l hl T k hT hk ↦ ?_⟩
  obtain ⟨l', hl'⟩ := hV.2.2 v hv
  obtain rfl : l' = l := by
    have := (hx.vote hl').symm.trans hl
    simpa using this
  rw [s.acked_past a (hT.trans_le (h.vote_le hl'))] at hk
  exact (hkept v hv hl' hT hk).mono hx (hk.trans (h.acked_le T v)) List.prefix_rfl (Nat.le_refl _)

/-- An election in a quorum whose votes are safe is safe. -/
theorem chosen_elect (hs : Safe tm members s) (h : Sound tm members s) {p : P}
    (hg : (Act.elect p : Act P E).Guard tm members s) :
    ∃ V, (s.act (.elect p)).Elects members (s.term p) p V ∧ ∀ v ∈ V, ∀ {l},
      (s.act (.elect p)).vote (s.term p) v = some (p, l) → ∀ {T k}, T < s.term p →
        k ≤ (s.act (.elect p)).acked T v →
          (s.act (.elect p)).Keeps T k l (s.term p - 1) := by
  have hx := h.ext hg
  obtain ⟨hp, V, hV⟩ := hg
  have fresh := h.elected_eq_none hp hV
  refine ⟨V, hV, fun v hv l hl T k hT hk ↦ ?_⟩
  rw [s.acked_past _ (hT.trans_le (h.vote_le hl))] at hk
  -- the term has no leader yet, so a loss is of an earlier term
  have hkeep : s.Keeps T k l (s.term p - 1) := by
    rcases hs.kept_vote hl hT hk with hpre | ⟨T'', h1, h2, ⟨p', hp'⟩, hb⟩
    · exact Or.inl hpre
    · have hne : T'' ≠ s.term p := by
        rintro rfl
        exact nomatch fresh.symm.trans hp'
      exact Or.inr ⟨T'', h1, by omega, ⟨p', hp'⟩, hb⟩
  exact hkeep.mono hx (hk.trans (h.acked_le T v)) List.prefix_rfl (Nat.le_refl _)

/-- A follower that gives up no entry of its leader still has what it took over. -/
theorem kept_adopt (hs : Safe tm members s) (h : Sound tm members s) {q : P} {k : Nat}
    (hg : (Act.adopt q k : Act P E).Guard tm members s)
    (hc : (Act.adopt q k : Act P E).Careful tm members s) {T n : Nat}
    (hn : n ≤ (s.act (.adopt q k)).acked T q) :
    (s.act (.adopt q k)).Keeps T n ((s.tlog (s.term q)).take k) (s.term q) := by
  obtain ⟨-, ⟨p, hp⟩, hb, hk⟩ := hg
  have hbase : s.base (s.term q) <+: (s.tlog (s.term q)).take k :=
    List.prefix_take_iff.mpr ⟨h.base_isPrefix _, hb⟩
  simp only [State.act, update_update_apply, and_true] at hn
  change s.Keeps T n _ _
  split at hn
  · next hT =>
    subst hT
    left
    by_cases hnk : n ≤ k
    · exact List.take_prefix_take_left hnk
    · exfalso
      have hn' : n ≤ s.acked (s.term q) q := by omega
      have hnl := hn'.trans (h.acked_le _ _)
      rcases hs.kept hn' with hpre | ⟨T'', h1, h2, -⟩
      · -- the entry at `k` is the leader's own
        have hin : (s.log q)[k]? = (s.tlog (s.term q))[k]? := by
          obtain ⟨r, hr⟩ := hpre
          rw [← hr, List.getElem?_append_left (by rw [List.length_take_of_le hnl]; omega),
            List.getElem?_take_of_lt (by omega)]
        have hlt : k < (s.tlog (s.term q)).length := by omega
        rw [List.getElem?_eq_getElem hlt] at hin
        exact hc k _ (Nat.le_refl _) hin (h.own hb (List.getElem?_eq_getElem hlt))
      · omega
  · next hT =>
    have hle : T < s.term q ∨ n = 0 := by
      rcases Nat.lt_trichotomy T (s.term q) with hlt | heq | hgt
      · exact Or.inl hlt
      · exact absurd heq hT
      · exact Or.inr (by rw [h.acked_future hgt] at hn; omega)
    rcases hle with hlt | rfl
    · by_cases hpre : (s.tlog T).take n <+: s.base (s.term q)
      · exact Or.inl (hpre.trans hbase)
      · exact Or.inr ⟨s.term q, hlt, Nat.le_refl _, ⟨p, hp⟩, hpre⟩
    · left
      rw [List.take_zero]
      exact List.nil_prefix

/-- A guarded and careful action other than a commit keeps every committed prefix. -/
theorem committed_act (hs : Safe tm members s) (h : Sound tm members s) {a : Act P E}
    (hg : a.Guard tm members s) (hc : a.Careful tm members s) (q : P) :
    (s.log q).take (s.commit q + 1) <+: (s.act a).log q := by
  cases a with
  | bump | stand | grant | elect | commit => exact List.take_prefix _ _
  | append p e =>
    rcases eq_or_ne q p with rfl | hqp
    · simpa [State.act] using (List.take_prefix _ _).trans (List.prefix_append _ _)
    · simpa [State.act, hqp] using List.take_prefix _ _
  | adopt p k =>
    rcases eq_or_ne q p with rfl | hqp
    · simpa [State.act] using hs.committed_adopt h hg hc
    · simpa [State.act, hqp] using List.take_prefix _ _

/-- Every guarded and careful action keeps the state safe. -/
theorem act (hs : Safe tm members s) (h : Sound tm members s) {a : Act P E}
    (hg : a.Guard tm members s) (hc : a.Careful tm members s) : Safe tm members (s.act a) := by
  have hx := h.ext hg
  have old {T n U : Nat} {p : P} {l : List E} (hn : n ≤ s.acked T p) (hl : s.log p <+: l)
      (hU : s.term p ≤ U) : (s.act a).Keeps T n l U :=
    (hs.kept hn).mono hx (hn.trans (h.acked_le T p)) hl hU
  constructor
  case kept_vote => exact fun hv _ _ hT hk ↦ hs.kept_vote_act h hg hv hT hk
  case chosen =>
    intro T p hp hT
    cases a with
    | elect p' =>
      rcases eq_or_ne T (s.term p') with rfl | hne
      · obtain rfl : p' = p := by simpa [State.act] using hp
        exact hs.chosen_elect h hg
      · exact hs.chosen_old h hg (by simpa [State.act, hne] using hp) hT
    | bump | stand | grant | append | adopt | commit => exact hs.chosen_old h hg hp hT
  case kept =>
    intro T q n hn
    have hterm := s.term_le hg q
    cases a with
    | bump | stand | grant | commit => exact old hn List.prefix_rfl hterm
    | elect p =>
      simp only [State.act, update_update_apply] at hn
      split at hn
      · next hT =>
        left
        simpa [State.act, hT.1, hT.2] using List.take_prefix n (s.log p)
      · exact old hn List.prefix_rfl hterm
    | append p e =>
      simp only [State.act, update_update_apply] at hn
      split at hn
      · next hT =>
        left
        simpa [State.act, hT.1, hT.2] using List.take_prefix n (s.log p ++ [e])
      · refine old hn ?_ hterm
        rcases eq_or_ne q p with rfl | hqp
        · simp [State.act]
        · simp [State.act, hqp]
    | adopt p k =>
      rcases eq_or_ne q p with rfl | hqp
      · simpa [State.act] using hs.kept_adopt h hg hc hn
      · simp only [State.act, update_update_apply, hqp, and_false, ite_false] at hn
        exact old hn (by simp [State.act, hqp]) hterm
  case commit_lt =>
    intro q
    have hlt := hs.commit_lt q
    have hpre := (hs.committed_act h hg hc q).length_le
    rw [List.length_take_of_le hlt] at hpre
    cases a with
    | commit p i =>
      rcases eq_or_ne q p with rfl | hqp
      · simpa [State.act] using hc.2.1
      · simpa [State.act, hqp] using hlt
    | bump | stand | grant | elect | append | adopt => exact hpre
  case covered =>
    intro q
    have hlt := hs.commit_lt q
    have hpre := hs.committed_act h hg hc q
    have hsame : ((s.act a).log q).take (s.commit q + 1) = (s.log q).take (s.commit q + 1) := by
      have := take_of_isPrefix hpre (Nat.le_of_eq (List.length_take_of_le hlt).symm)
      rwa [List.take_take, Nat.min_self] at this
    have hcov := (hs.covered q).mono hx (s.term_le hg q) List.prefix_rfl
    cases a with
    | commit p i =>
      rcases eq_or_ne q p with rfl | hqp
      · simpa [State.act] using hc.2.2.mono hx (Nat.le_refl _) List.prefix_rfl
      · simpa [State.act, hqp] using hcov
    | bump | stand | grant | elect | append | adopt => exact hsame ▸ hcov

/-- Runs of careful actions keep a sound and safe state safe. -/
theorem steps {t : State P E} (hs : Safe tm members s) (h : Sound tm members s) {D : Prop}
    (hD : D) (st : Steps tm members D s t) : Safe tm members t := by
  induction st with
  | refl => exact hs
  | tail st guard careful ih => exact ih.act (h.steps st) guard (careful hD)

/-- They commit forward and keep every committed prefix. -/
theorem steps_committed {t : State P E} (hs : Safe tm members s) (h : Sound tm members s)
    {D : Prop} (hD : D) (st : Steps tm members D s t) (q : P) :
    s.commit q ≤ t.commit q ∧ (s.log q).take (s.commit q + 1) <+: t.log q := by
  induction st with
  | refl => exact ⟨Nat.le_refl _, List.take_prefix _ _⟩
  | @tail u a st guard careful ih =>
    obtain ⟨hle, hpre⟩ := ih
    have hsafe := hs.steps h hD st
    have hnext := hsafe.committed_act (h.steps st) guard (careful hD) q
    constructor
    · refine hle.trans ?_
      cases a with
      | commit p i =>
        rcases eq_or_ne q p with rfl | hqp
        · simpa [State.act] using (careful hD).1
        · simp [State.act, hqp]
      | bump | stand | grant | elect | append | adopt => exact Nat.le_refl _
    · refine List.IsPrefix.trans ?_ hnext
      exact List.prefix_take_iff.mpr ⟨hpre, (List.length_take_le _ _).trans (by omega)⟩

end Safe

end TrustedDcr.Theory.Raft
