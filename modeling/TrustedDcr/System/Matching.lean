import TrustedDcr.System.Logs

/-!
# Matching logs

Where each term has one leader, an entry of the term at some index has below it
what the leader had there: every log, and every part of a log on its way, is up to
each of its entries a part of a log that the leader of the entry's term has had.
-/

namespace TrustedDcr.System
open TrustedDcr.Msg TrustedDcr.Dcr TrustedDcr.Enclave TrustedDcr.Theory

/-- In some state so far a member led the term with this log. -/
def LedWith (cfg : Config) (x : Uid) (h : Hist) (s : World) (term : Nat) (log : List Entry) :
    Prop :=
  ∃ s' ∈ states h s, ∃ p ∈ cfg.cluster x, (s'.peers p).role = .leader ∧
    (s'.peers p).term = term ∧ (s'.peers p).log = log

/-- In all states so far the leaders of one term are one member. -/
def LeadersUnique (cfg : Config) (x : Uid) (h : Hist) (s : World) : Prop :=
  ∀ s₁ ∈ states h s, ∀ s₂ ∈ states h s, ∀ p ∈ cfg.cluster x, ∀ q ∈ cfg.cluster x,
    (s₁.peers p).role = .leader → (s₂.peers q).role = .leader →
    (s₁.peers p).term = (s₂.peers q).term → p = q

/-- After the placeholder the log is, up to each entry, part of a leader's of the entry's term. -/
def Anchored (cfg : Config) (x : Uid) (h : Hist) (s : World) (log : List Entry) : Prop :=
  ∀ i e, log[i]? = some e → 0 < i → ∃ l, LedWith cfg x h s e.term l ∧ log.take (i + 1) <+: l

section
variable {cfg : Config} {x : Uid} {h : Hist} {s t : World} {a : Action} {l l' : List Entry}

/-- What was led stays so. -/
theorem LedWith.later {term : Nat} (hl : LedWith cfg x h s term l) :
    LedWith cfg x ((s, a) :: h) t term l := by
  obtain ⟨s', hs', hled⟩ := hl
  exact ⟨s', List.mem_cons_of_mem _ hs', hled⟩

private theorem Anchored.later (hl : Anchored cfg x h s l) : Anchored cfg x ((s, a) :: h) t l := by
  intro i e he hi
  obtain ⟨l', hled, hpre⟩ := hl i e he hi
  exact ⟨l', hled.later, hpre⟩

private theorem LeadersUnique.earlier (unique : LeadersUnique cfg x ((s, a) :: h) t) :
    LeadersUnique cfg x h s := fun s₁ h₁ s₂ h₂ ↦
  unique s₁ (List.mem_cons_of_mem _ h₁) s₂ (List.mem_cons_of_mem _ h₂)

/-- Of two logs the leader of a term has had, one extends the other. -/
theorem LedWith.comparable (run : Run cfg (fun _ s _ ↦ TermsBelow cfg s) h s)
    (unique : LeadersUnique cfg x h s) {term : Nat} (hl : LedWith cfg x h s term l)
    (hl' : LedWith cfg x h s term l') : l <+: l' ∨ l' <+: l := by
  obtain ⟨s₁, h₁, p, hp, leads₁, term₁, rfl⟩ := hl
  obtain ⟨s₂, h₂, q, hq, leads₂, term₂, rfl⟩ := hl'
  obtain rfl := unique s₁ h₁ s₂ h₂ p hp q hq leads₁ leads₂ (term₁.trans term₂.symm)
  have hterm : (s₁.peers p).term = (s₂.peers p).term := term₁.trans term₂.symm
  have extends_log {u v : World} (he : ∀ q, Ensues (u.peers q).node (v.peers q).node)
      (leads : (u.peers p).role = .leader) (hterm : (v.peers p).term = (u.peers p).term) :
      (u.peers p).log <+: (v.peers p).log := by
    obtain ⟨-, new, hlog, -⟩ := (he p).leads leads hterm
    exact ⟨new, hlog.symm⟩
  rcases run.ensues_total h₁ h₂ with he | he
  · exact Or.inl (extends_log he leads₁ hterm.symm)
  · exact Or.inr (extends_log he leads₂ hterm)

/-- Two logs with entries of one term at an index have the same entries up to there. -/
theorem Anchored.matching (run : Run cfg (fun _ s _ ↦ TermsBelow cfg s) h s)
    (unique : LeadersUnique cfg x h s) (hl : Anchored cfg x h s l) (hl' : Anchored cfg x h s l')
    (root : l[0]? = some getEmptyEntry) (root' : l'[0]? = some getEmptyEntry) {i : Nat}
    {e f : Entry} (he : l[i]? = some e) (hf : l'[i]? = some f) (term : e.term = f.term) :
    l.take (i + 1) = l'.take (i + 1) := by
  rcases Nat.eq_zero_or_pos i with rfl | hi
  · rw [List.take_one, List.take_one, List.head?_eq_getElem?, List.head?_eq_getElem?, root, root']
  · obtain ⟨m, hled, hpre⟩ := hl i e he hi
    obtain ⟨m', hled', hpre'⟩ := hl' i f hf hi
    rw [term] at hled
    have hlen : (l.take (i + 1)).length = i + 1 :=
      List.length_take_of_le (List.getElem?_eq_some_iff.mp he).1
    have hlen' : (l'.take (i + 1)).length = i + 1 :=
      List.length_take_of_le (List.getElem?_eq_some_iff.mp hf).1
    -- both are the start of the longer one of the leader's two logs
    have same {m : List Entry} (hp : l.take (i + 1) <+: m) (hp' : l'.take (i + 1) <+: m) :
        l.take (i + 1) = l'.take (i + 1) := by
      rw [List.prefix_iff_eq_take.mp hp, List.prefix_iff_eq_take.mp hp', hlen, hlen']
    rcases hled.comparable run unique hled' with hmm | hmm
    · exact same (hpre.trans hmm) hpre'
    · exact same hpre (hpre'.trans hmm)

end

/-- Part of an anchored log up to the term of the request. -/
def CopiedFrom (cfg : Config) (x : Uid) (h : Hist) (s : World) (req : AppendReq) : Prop :=
  ∃ log, WellFormed req.term log ∧ Anchored cfg x h s log ∧ Carries req log

/-- All logs of a cluster are anchored, and so is what is on its way between its members. -/
structure Matched (cfg : Config) (x : Uid) (h : Hist) (s : World) : Prop where
  logs : ∀ p ∈ cfg.cluster x, Anchored cfg x h s (s.peers p).log
  copied : ∀ req, .appendReq req ∈ s.net → req.source ∈ cfg.cluster x → CopiedFrom cfg x h s req

section
variable {cfg : Config} {x : Uid} {h : Hist} {s t : World} {a : Action} {u v w : View}

/-- The log of a calling member, and what it has sent so far, at the end of the call. -/
structure MatchedCall (cfg : Config) (x : Uid) (h : Hist) (s : World) (v : View) : Prop where
  formed : WellFormed v.node.term v.node.log
  anchored : Anchored cfg x h s v.node.log
  copied : ∀ req, .appendReq req ∈ v.sent → CopiedFrom cfg x h s req

/-- A move of a member keeps its log anchored. -/
theorem Matched.move (run : Run cfg (fun _ s _ ↦ TermsBelow cfg s) h s) (below : TermsBelow cfg s)
    (next : s.step cfg a = some t) (unique : LeadersUnique cfg x ((s, a) :: h) t)
    (hp : a.peer ∈ cfg.cluster x) (hm : Matched cfg x h s) {e : EnclaveState}
    (hid : v.node.id = a.peer)
    (hpeers : t.peers = Function.update s.peers a.peer e.self)
    (hv : MatchedCall cfg x ((s, a) :: h) t v)
    (move : Move a.call.received a.oracle (s.peers a.peer) v w)
    (after : Relation.ReflTransGen (Move a.call.received a.oracle (s.peers a.peer)) w e.view) :
    MatchedCall cfg x ((s, a) :: h) t w := by
  have wired := run.ensues.1
  have run' := run.step below next
  have hr := (World.step_cases next).1.received
  have ensues := Ensues.of_move wired below hr hp move
  obtain ⟨formed, anchored, copied⟩ := hv
  cases move with
  | say ms ds spoken =>
    refine ⟨formed, anchored, fun req hreq ↦ ?_⟩
    rcases List.mem_append.mp hreq with hreq | hreq
    · exact copied req hreq
    · obtain ⟨haddressed, hslice⟩ := spoken _ hreq
      have hterm : req.term = v.node.term := (haddressed _ rfl).2.1
      exact ⟨v.node.log, hterm ▸ formed, anchored, .of_slice hslice formed.indexed⟩
  | bump | stand => exact ⟨formed.mono ensues.term_le, anchored, copied⟩
  | count | elect | commit | commitAlone => exact ⟨formed, anchored, copied⟩
  | grant =>
    refine ⟨formed, anchored, fun req hreq ↦ ?_⟩
    rcases List.mem_append.mp hreq with hreq | hreq
    · exact copied req hreq
    · exact absurd (List.mem_singleton.mp hreq) (by simp)
  | @append e' leads log term origin =>
    refine ⟨formed.append ?_ ?_, ?_, copied⟩
    · rw [origin.position.1, log]
    · rw [origin.position.2, term]
    intro i f hf hi
    rcases getElem?_concat_cases hf with ⟨hlt, hf⟩ | ⟨rfl, rfl⟩
    · rw [List.take_append_of_le_length hlt]
      exact anchored i f hf hi
    · -- the new entry is in the log this leader ends the call with
      obtain ⟨leads', term'⟩ := leads_of_moves origin.letter_eq_none (by exact leads) after
      obtain ⟨-, new, hlog, -⟩ := (Ensues.of_moves wired below hr hp after).leads leads term'
      refine ⟨_, ⟨t, List.mem_cons_self, a.peer, hp, ?_, ?_, rfl⟩, ?_⟩
      · rw [hpeers, Function.update_self]
        exact leads'
      · rw [hpeers, Function.update_self, origin.position.2, ← term]
        exact term'
      · rw [hpeers, Function.update_self, List.take_of_length_le (by simp)]
        exact ⟨new, hlog.symm⟩
  | @accept req prev received addressed term follows opens log hprev hterm =>
    have htarget : req.target ∈ cfg.cluster x := by
      rwa [addressed, hid]
    have hsource := (wired.source_mem hr received (l := ⟨req.source, req.target, req.term⟩) rfl
      htarget).1
    obtain ⟨l, hl, hanchored, ⟨f, hf, hft⟩, hentries⟩ := hm.copied req (hr _ received) hsource
    have hmatch := anchored.matching run' unique hanchored.later formed.root hl.root hprev hf
      (hterm.trans hft.symm)
    have hlog : (v.node.accept req).log = l := by
      change v.node.log.take (req.prevIndex + 1) ++ req.entries = l
      rw [hmatch, hentries, List.take_append_drop]
    refine ⟨?_, ?_, fun req' hreq ↦ ?_⟩
    · rw [hlog]
      rwa [term] at hl
    · rw [hlog]
      exact hanchored.later
    · rcases List.mem_append.mp hreq with hreq | hreq
      · exact copied req' hreq
      · exact absurd (List.mem_singleton.mp hreq) (by simp)

private theorem Matched.initial (cfg : Config) (x : Uid) :
    Matched cfg x [] (World.initial cfg) where
  logs p _ := by
    intro i e he hi
    have hlog : ((World.initial cfg).peers p).log = [getEmptyEntry] :=
      congrArg Node.log (fresh_configured cfg p).node
    rw [hlog, List.getElem?_eq_none (by rwa [List.length_singleton])] at he
    exact nomatch he
  copied _ hm := nomatch hm

/-- A step keeps all logs anchored. -/
theorem Matched.step (run : Run cfg (fun _ s _ ↦ TermsBelow cfg s) h s) (below : TermsBelow cfg s)
    (next : s.step cfg a = some t) (unique : LeadersUnique cfg x ((s, a) :: h) t)
    (hm : Matched cfg x h s) : Matched cfg x ((s, a) :: h) t := by
  have wired := run.ensues.1
  have allowed := (World.step_cases next).1
  have hmember := Config.mem_cluster_clusterOf allowed.1
  obtain ⟨e, moves, hw, hpeers, hnet⟩ := wired.call below next
  have later {req : AppendReq} (hc : CopiedFrom cfg x h s req) :
      CopiedFrom cfg x ((s, a) :: h) t req := by
    obtain ⟨l, hl, hanchored, hcarries⟩ := hc
    exact ⟨l, hl, hanchored.later, hcarries⟩
  by_cases hp : a.peer ∈ cfg.cluster x
  · obtain ⟨-, hanchored, hcopied⟩ := Wiring.keeps (Q := MatchedCall cfg x ((s, a) :: h) t) wired
      below allowed.received hmember
      (fun v w hv hq move after ↦ hm.move run below next unique hp hv.placed.1 hpeers hq move after)
      (Wiring.start wired a.peer)
      ⟨run.ordered.logs a.peer, (hm.logs a.peer hp).later, fun _ hr ↦ nomatch hr⟩ moves
    constructor
    · intro q hq
      rw [hpeers]
      rcases eq_or_ne q a.peer with rfl | hne
      · rw [Function.update_self]
        exact hanchored
      · rw [Function.update_of_ne hne]
        exact (hm.logs q hq).later
    · intro req hr hs
      rw [hnet] at hr
      rcases List.mem_append.mp hr with hr | hr
      · exact later (hm.copied req hr hs)
      · exact hcopied req hr
  · constructor
    · intro q hq
      rw [hpeers, Function.update_of_ne (ne_of_mem_of_not_mem hq hp)]
      exact (hm.logs q hq).later
    · intro req hr hs
      rw [hnet] at hr
      rcases List.mem_append.mp hr with hr | hr
      · exact later (hm.copied req hr hs)
      · exact absurd ((hw.posted _ hr _ rfl).1 ▸ hs) hp

end

/-- Over a run in which each term of a cluster has one leader, its logs are anchored. -/
theorem Run.matched {cfg : Config} {x : Uid} {h : Hist} {s : World}
    (run : Run cfg (fun _ s _ ↦ TermsBelow cfg s) h s) (unique : LeadersUnique cfg x h s) :
    Matched cfg x h s := by
  induction run with
  | initial => exact Matched.initial cfg x
  | step run below next ih => exact (ih unique.earlier).step run below next unique

/-- In every run in which each term has one leader and no term reaches the last one, two logs of a
cluster with entries of one term at an index are equal up to there.
`src/enclave/enclave.cpp:172–200,670–766`. -/
theorem logs_match {cfg : Config} {x : Uid} {h : Hist} {s : World}
    (run : Run cfg (fun _ s _ ↦ TermsBelow cfg s) h s) (unique : LeadersUnique cfg x h s)
    {p q : Uid} (hp : p ∈ cfg.cluster x) (hq : q ∈ cfg.cluster x) {i : Nat} {e f : Entry}
    (he : (s.peers p).log[i]? = some e) (hf : (s.peers q).log[i]? = some f)
    (term : e.term = f.term) : (s.peers p).log.take (i + 1) = (s.peers q).log.take (i + 1) := by
  have matched := run.matched unique
  exact (matched.logs p hp).matching run unique (matched.logs q hq) (run.ordered.logs p).root
    (run.ordered.logs q).root he hf term

/-- All leaders are among these, with their terms. -/
def LeadersAmong (cfg : Config) (leaders : List (Uid × Nat)) (peers : Uid → Peer) : Prop :=
  ∀ q ∈ cfg.peerToEventMap.keys, (peers q).role = .leader → (q, (peers q).term) ∈ leaders

instance (cfg : Config) (leaders : List (Uid × Nat)) (peers : Uid → Peer) :
    Decidable (LeadersAmong cfg leaders peers) :=
  inferInstanceAs (Decidable (∀ q ∈ cfg.peerToEventMap.keys, _))

/-- A peer that stands is no leader. -/
theorem LeadersAmong.timedOut {cfg : Config} {leaders : List (Uid × Nat)} {peers : Uid → Peer}
    {p : Uid} {k : Nat} (among : LeadersAmong cfg leaders peers) (stood : JustStood (peers p)) :
    LeadersAmong cfg leaders (Function.update peers p (timedOut (peers p) k)) := by
  intro q hq leads
  rcases eq_or_ne q p with rfl | hne
  · rw [Function.update_self] at leads
    exact nomatch stood.1.symm.trans leads
  · rw [Function.update_of_ne hne] at leads ⊢
    exact among q hq leads

/-- With one entry for each term, each term has one leader. -/
theorem LeadersUnique.of_among {cfg : Config} {C : Hist → World → Action → Prop} {h : Hist}
    {s : World} {leaders : List (Uid × Nat)} (run : Run cfg C h s)
    (meets : ∀ h s a, C h s a → LeadersAmong cfg leaders s.peers)
    (among : LeadersAmong cfg leaders s.peers) (once : (leaders.map Prod.snd).Nodup) (x : Uid) :
    LeadersUnique cfg x h s := by
  have always : ∀ s' ∈ states h s, LeadersAmong cfg leaders s'.peers := by
    clear once
    induction run with
    | initial =>
      intro s' hs'
      rwa [List.mem_singleton.mp hs']
    | step _ hC _ ih =>
      intro s' hs'
      rcases List.mem_cons.mp hs' with rfl | hs'
      · exact among
      · exact ih (meets _ _ _ hC) s' hs'
  have mem_keys {p : Uid} (hp : p ∈ cfg.cluster x) : p ∈ cfg.peerToEventMap.keys :=
    Std.ExtTreeMap.mem_keys.mpr (Config.mem_of_mem_cluster hp)
  intro s₁ h₁ s₂ h₂ p hp q hq leads₁ leads₂ term
  have hm₁ := always s₁ h₁ p (mem_keys hp) leads₁
  have hm₂ := always s₂ h₂ q (mem_keys hq) leads₂
  rw [term] at hm₁
  exact congrArg Prod.fst (List.inj_on_of_nodup_map once hm₁ hm₂ rfl)

/-- The first of two peers leads, and its entry reaches the second. -/
theorem duo_logs_match : ∃ h s, Run duo (fun _ s _ ↦ TermsBelow duo s) h s ∧
    (s.peers ⟨0, 12⟩).log.length = 2 ∧
    (s.peers ⟨0, 11⟩).log.take 2 = (s.peers ⟨0, 12⟩).log.take 2 := by
  obtain ⟨h, s, run, among, hlength, hp, hq, e, he, f, hf, term⟩ := exists_run_of_replay duo
    (fun _ s _ ↦ TermsBelow duo s ∧ LeadersAmong duo [(⟨0, 11⟩, 1)] s.peers)
    [.tick ⟨0, 11⟩ 1 emptyUid, .tick ⟨0, 12⟩ 1 emptyUid, .tick ⟨0, 11⟩ 10000 emptyUid,
      .deliver ⟨0, 12⟩ 0, .deliver ⟨0, 11⟩ 1, .deliver ⟨0, 12⟩ 2, .deliver ⟨0, 11⟩ 3,
      .start ⟨0, 11⟩ ⟨0, 1⟩ ⟨0, 101⟩, .deliver ⟨0, 11⟩ 5, .deliver ⟨0, 12⟩ 6]
    (fun _ s ↦ LeadersAmong duo [(⟨0, 11⟩, 1)] s.peers ∧ (s.peers ⟨0, 12⟩).log.length = 2 ∧
      ⟨0, 11⟩ ∈ duo.cluster ⟨0, 1⟩ ∧ ⟨0, 12⟩ ∈ duo.cluster ⟨0, 1⟩ ∧
      ∃ e ∈ (s.peers ⟨0, 11⟩).log[1]?, ∃ f ∈ (s.peers ⟨0, 12⟩).log[1]?, e.term = f.term)
    (by decide +kernel)
  have unique : LeadersUnique duo ⟨0, 1⟩ h s :=
    .of_among run (fun _ _ _ meets ↦ meets.2) among (List.nodup_singleton _) ⟨0, 1⟩
  have run' : Run duo (fun _ s _ ↦ TermsBelow duo s) h s := run.mono fun _ _ _ meets ↦ meets.1
  exact ⟨h, s, run', hlength, logs_match run' unique hp hq he hf term⟩

/-- A leader loses an entry of term 1, stands until its counter is back there, and is elected by the
vote it got the first time. -/
theorem not_logs_match : ¬ ∀ (cfg : Config) (x : Uid) (h : Hist) (s : World) (p q : Uid) (i : Nat)
    (e f : Entry), Run cfg anyStep h s → LeadersUnique cfg x h s → p ∈ cfg.cluster x →
    q ∈ cfg.cluster x → (s.peers p).log[i]? = some e → (s.peers q).log[i]? = some f →
    e.term = f.term → (s.peers p).log.take (i + 1) = (s.peers q).log.take (i + 1) := by
  intro claim
  obtain ⟨h, s, run, among, hp, hq, e, he, f, hf, term, hne⟩ := exists_run_of_timeouts quartet
    (LeadersAmong quartet [(⟨0, 11⟩, 1), (⟨0, 12⟩, 2)])
    [.tick ⟨0, 11⟩ 1 emptyUid, .tick ⟨0, 12⟩ 1 emptyUid, .tick ⟨0, 13⟩ 1 emptyUid,
      .tick ⟨0, 14⟩ 1 emptyUid, .tick ⟨0, 11⟩ 10000 emptyUid, .deliver ⟨0, 12⟩ 0,
      .deliver ⟨0, 11⟩ 3, .deliver ⟨0, 11⟩ 3, .deliver ⟨0, 12⟩ 4, .deliver ⟨0, 11⟩ 7,
      .deliver ⟨0, 11⟩ 7, .start ⟨0, 11⟩ ⟨0, 1⟩ ⟨0, 101⟩, .start ⟨0, 11⟩ ⟨0, 1⟩ ⟨0, 102⟩,
      .deliver ⟨0, 11⟩ 11, .deliver ⟨0, 14⟩ 15, .tick ⟨0, 12⟩ 20000 emptyUid,
      .deliver ⟨0, 13⟩ 18, .deliver ⟨0, 12⟩ 20, .deliver ⟨0, 12⟩ 20, .deliver ⟨0, 13⟩ 22,
      .deliver ⟨0, 12⟩ 24, .deliver ⟨0, 12⟩ 24, .deliver ⟨0, 11⟩ 25, .deliver ⟨0, 11⟩ 3,
      .deliver ⟨0, 11⟩ 3]
    [.deliver ⟨0, 11⟩ 7, .deliver ⟨0, 11⟩ 7, .deliver ⟨0, 11⟩ 12]
    (p := ⟨0, 11⟩) (k := 2 ^ 32 - 2) (Nat.sub_le _ _)
    (fun peers ↦ ⟨0, 11⟩ ∈ quartet.cluster ⟨0, 1⟩ ∧ ⟨0, 14⟩ ∈ quartet.cluster ⟨0, 1⟩ ∧
      ∃ e ∈ (peers ⟨0, 11⟩).log[1]?, ∃ f ∈ (peers ⟨0, 14⟩).log[1]?, e.term = f.term ∧
        (peers ⟨0, 11⟩).log.take 2 ≠ (peers ⟨0, 14⟩).log.take 2)
    (fun _ _ among stood ↦ among.timedOut stood) (by decide +kernel)
  have unique : LeadersUnique quartet ⟨0, 1⟩ h s :=
    .of_among run (fun _ _ _ meets ↦ meets) among (by decide) ⟨0, 1⟩
  exact hne (claim quartet ⟨0, 1⟩ h s _ _ 1 e f (run.mono fun _ _ _ _ ↦ trivial) unique hp hq he hf
    term)

end TrustedDcr.System
