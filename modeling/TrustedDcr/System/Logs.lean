import TrustedDcr.System.Terms
import TrustedDcr.System.Timeouts

/-!
# Well-formed logs

An entry is numbered by the place it is made for and copied from there on, and
the first entry a leader sends follows one the receiver has with the same term.
So all logs, and all parts of logs on their way, are in order.
-/

namespace TrustedDcr.System
open TrustedDcr.Msg TrustedDcr.Dcr TrustedDcr.Enclave TrustedDcr.Theory

/-- A log up to a term: the placeholder first, every entry at its index, the terms in order. -/
structure WellFormed (term : Nat) (log : List Entry) : Prop where
  root : log[0]? = some getEmptyEntry
  indexed : Indexed log
  sorted : log.Pairwise fun e f ↦ e.term ≤ f.term
  term_le : ∀ e ∈ log, e.term ≤ term

/-- The request names an entry of the log and carries all that follows it. -/
def Carries (req : AppendReq) (log : List Entry) : Prop :=
  (∃ prev, log[req.prevIndex]? = some prev ∧ prev.term = req.prevTerm) ∧
    req.entries = log.drop (req.prevIndex + 1)

/-- What a leader sends carries its own log. -/
theorem Carries.of_slice {n : Node} {req : AppendReq} (hs : Slice n req) (h : Indexed n.log) :
    Carries req n.log := by
  obtain ⟨-, -, k, prev, hk, hpt, hpi, hentries⟩ := hs
  have hprev : req.prevIndex = k := hpi.trans (h k prev hk)
  refine ⟨⟨prev, ?_, hpt.symm⟩, ?_⟩
  · rw [hprev, hk]
  · rw [hprev, hentries]

namespace WellFormed

variable {T U : Nat} {l l' : List Entry}

/-- A log well formed in a term is so in later ones. -/
theorem mono (h : WellFormed T l) (hle : T ≤ U) : WellFormed U l where
  root := h.root
  indexed := h.indexed
  sorted := h.sorted
  term_le e he := (h.term_le e he).trans hle

/-- Terms do not decrease with the index. -/
theorem term_mono (h : WellFormed T l) {i j : Nat} {e f : Entry} (hij : i ≤ j)
    (he : l[i]? = some e) (hf : l[j]? = some f) : e.term ≤ f.term := by
  obtain ⟨hi, rfl⟩ := List.getElem?_eq_some_iff.mp he
  obtain ⟨hj, rfl⟩ := List.getElem?_eq_some_iff.mp hf
  rcases Nat.lt_or_eq_of_le hij with hlt | rfl
  · exact List.pairwise_iff_getElem.mp h.sorted i j hi hj hlt
  · exact Nat.le_refl _

/-- A beginning of a well formed log is well formed, if it has an entry. -/
theorem of_isPrefix (h : WellFormed T l) (hpre : l' <+: l) (nonempty : l' ≠ []) :
    WellFormed T l' where
  root := by
    rw [← h.root, getElem?_eq_of_isPrefix hpre (List.length_pos_of_ne_nil nonempty)]
  indexed := Indexed.of_isPrefix _ _ hpre h.indexed
  sorted := h.sorted.sublist hpre.sublist
  term_le e he := h.term_le e (hpre.subset he)

/-- The log a peer starts with. -/
theorem initial : WellFormed 0 [getEmptyEntry] where
  root := rfl
  indexed := Indexed.append Indexed.nil rfl
  sorted := List.pairwise_singleton _ _
  term_le e he := by
    rw [List.mem_singleton.mp he]
    exact Nat.le_refl 0

/-- An entry of the last term goes to the end. -/
theorem append (h : WellFormed T l) {e : Entry} (index : e.index = l.length) (term : e.term = T) :
    WellFormed T (l ++ [e]) where
  root := by
    exact getElem?_of_isPrefix (List.prefix_append _ _) h.root
  indexed := h.indexed.append index
  sorted := by
    refine List.pairwise_append.mpr ⟨h.sorted, List.pairwise_singleton _ _, fun f hf e' he' ↦ ?_⟩
    rw [List.mem_singleton.mp he', term]
    exact h.term_le f hf
  term_le f hf := by
    rcases List.mem_append.mp hf with hf | hf
    · exact h.term_le f hf
    · rw [List.mem_singleton.mp hf, term]

/-- Up to a place where two logs have entries of one term, one can be continued by the other. -/
theorem splice (h : WellFormed T l) (h' : WellFormed T l') {k : Nat} {e f : Entry}
    (he : l[k]? = some e) (hf : l'[k]? = some f) (term : e.term = f.term) :
    WellFormed T (l.take (k + 1) ++ l'.drop (k + 1)) where
  root := by
    have hlt := (List.getElem?_eq_some_iff.mp he).1
    have hlen : (l.take (k + 1)).length = k + 1 := List.length_take_of_le hlt
    rw [List.getElem?_append_left (by omega), List.getElem?_take_of_lt (by omega), h.root]
  indexed := by
    have hlt := (List.getElem?_eq_some_iff.mp he).1
    have hlen : (l.take (k + 1)).length = k + 1 := List.length_take_of_le hlt
    intro i g hg
    rcases Nat.lt_or_ge i (k + 1) with hi | hi
    · rw [List.getElem?_append_left (by omega), List.getElem?_take_of_lt hi] at hg
      exact h.indexed i g hg
    · rw [List.getElem?_append_right (by omega), hlen, List.getElem?_drop,
        show k + 1 + (i - (k + 1)) = i by omega] at hg
      exact h'.indexed i g hg
  sorted := by
    refine List.pairwise_append.mpr ⟨h.sorted.take, h'.sorted.drop, fun a ha b hb ↦ ?_⟩
    -- the entries where the logs meet stand between
    obtain ⟨i, hi⟩ := List.mem_iff_getElem?.mp ha
    obtain ⟨j, hj⟩ := List.mem_iff_getElem?.mp hb
    rw [List.getElem?_take] at hi
    rw [List.getElem?_drop] at hj
    split at hi
    · next hlt =>
      have hae : a.term ≤ e.term := h.term_mono (by omega) hi he
      have hfb : f.term ≤ b.term := h'.term_mono (by omega) hf hj
      omega
    · exact nomatch hi
  term_le g hg := by
    rcases List.mem_append.mp hg with hg | hg
    · exact h.term_le g (List.mem_of_mem_take hg)
    · exact h'.term_le g (List.mem_of_mem_drop hg)

end WellFormed

/-- Part of a log up to the term of the request. -/
def Copied (req : AppendReq) : Prop := ∃ log, WellFormed req.term log ∧ Carries req log

/-- The logs of all peers are in order, and so is what is on its way. -/
structure Ordered (s : World) : Prop where
  logs : ∀ p, WellFormed (s.peers p).term (s.peers p).log
  copied : ∀ req, .appendReq req ∈ s.net → Copied req

section
variable {cfg : Config} {s t : World} {p x : Uid} {rcv : Option Message} {o : Oracle} {v w : View}

/-- The log of a calling peer, and what it has sent so far. -/
def OrderedCall (v : View) : Prop :=
  WellFormed v.node.term v.node.log ∧ ∀ req, .appendReq req ∈ v.sent → Copied req

/-- A move keeps the calling peer's log in order. -/
theorem Ordered.move (wired : Wired cfg s) (below : TermsBelow cfg s)
    (hr : ∀ m, rcv = some m → m ∈ s.net) (hp : p ∈ cfg.cluster x) (ho : Ordered s)
    (hv : OrderedCall v) (move : Move rcv o (s.peers p) v w) : OrderedCall w := by
  have ensues := Ensues.of_move wired below hr hp move
  obtain ⟨hlog, hsent⟩ := hv
  cases move with
  | say ms ds spoken =>
    refine ⟨hlog, fun req hm ↦ ?_⟩
    rcases List.mem_append.mp hm with hm | hm
    · exact hsent req hm
    · obtain ⟨haddressed, hslice⟩ := spoken _ hm
      have hterm : req.term = v.node.term := (haddressed _ rfl).2.1
      exact ⟨v.node.log, hterm ▸ hlog, .of_slice hslice hlog.indexed⟩
  | bump | stand => exact ⟨hlog.mono ensues.term_le, hsent⟩
  | count | elect | commit | commitAlone => exact ⟨hlog, hsent⟩
  | grant =>
    refine ⟨hlog, fun req hm ↦ ?_⟩
    rcases List.mem_append.mp hm with hm | hm
    · exact hsent req hm
    · exact absurd (List.mem_singleton.mp hm) (by simp)
  | append leads log term origin =>
    refine ⟨hlog.append ?_ ?_, hsent⟩
    · rw [origin.position.1, log]
    · rw [origin.position.2, term]
  | accept received addressed term follows opens log hprev hterm =>
    obtain ⟨l, hl, ⟨f, hf, hft⟩, hentries⟩ := ho.copied _ (hr _ received)
    constructor
    · rw [term] at hl
      have hspliced := hlog.splice hl hprev hf (hterm.trans hft.symm)
      rwa [← hentries] at hspliced
    · intro req' hm
      rcases List.mem_append.mp hm with hm | hm
      · exact hsent req' hm
      · exact absurd (List.mem_singleton.mp hm) (by simp)

private theorem Ordered.initial (cfg : Config) : Ordered (World.initial cfg) where
  logs p := by
    have hnode := (fresh_configured cfg p).node
    have hterm : ((World.initial cfg).peers p).term = 0 := congrArg Node.term hnode
    have hlog : ((World.initial cfg).peers p).log = [getEmptyEntry] := congrArg Node.log hnode
    rw [hterm, hlog]
    exact WellFormed.initial
  copied _ hm := nomatch hm

/-- A step keeps everything in order. -/
theorem Ordered.step {a : Action} (wired : Wired cfg s) (below : TermsBelow cfg s) (ho : Ordered s)
    (next : s.step cfg a = some t) : Ordered t := by
  have allowed := (World.step_cases next).1
  have hp := Config.mem_cluster_clusterOf allowed.1
  obtain ⟨e, moves, -, hpeers, hnet⟩ := wired.call below next
  obtain ⟨hlog, hsent⟩ := Wiring.keeps wired below allowed.received hp
    (fun v w _ hv move _ ↦ ho.move wired below allowed.received hp hv move)
    (Wiring.start wired a.peer) ⟨ho.logs a.peer, fun _ hm ↦ nomatch hm⟩ moves
  constructor
  · intro q
    rw [hpeers]
    rcases eq_or_ne q a.peer with rfl | hq
    · rw [Function.update_self]
      exact hlog
    · rw [Function.update_of_ne hq]
      exact ho.logs q
  · intro req hm
    rw [hnet] at hm
    rcases List.mem_append.mp hm with hm | hm
    · exact ho.copied req hm
    · exact hsent req hm

end

/-- Over a run in which no term reaches the last one, everything is in order. -/
theorem Run.ordered {cfg : Config} {h : Hist} {s : World}
    (run : Run cfg (fun _ s _ ↦ TermsBelow cfg s) h s) : Ordered s := by
  induction run with
  | initial => exact Ordered.initial cfg
  | step run below next ih => exact ih.step run.ensues.1 below next

/-- In every run in which no term reaches the last one, every log is well formed, and a leader that
keeps its term only extends its log, by entries of that term.
`src/enclave/enclave.cpp:172–238,555–568,705–766`. -/
theorem logs_well_formed {cfg : Config} {h : Hist} {s : World}
    (run : Run cfg (fun _ s _ ↦ TermsBelow cfg s) h s) (p : Uid) :
    WellFormed (s.peers p).term (s.peers p).log ∧
      ∀ a t, TermsBelow cfg s → s.step cfg a = some t → (s.peers p).role = .leader →
        (t.peers p).role = .leader → (t.peers p).term = (s.peers p).term →
        ∃ new, (t.peers p).log = (s.peers p).log ++ new ∧
          ∀ e ∈ new, e.term = (s.peers p).term := by
  refine ⟨run.ordered.logs p, fun a t below next leads _ term ↦ ?_⟩
  exact ((run.ensues.1.ensues below next p).leads leads term).2

/-- The first of two peers leads and appends an entry. -/
theorem duo_log_extended : ∃ h s a t, Run duo (fun _ s _ ↦ TermsBelow duo s) h s ∧
    s.step duo a = some t ∧ (t.peers ⟨0, 11⟩).log.length = 2 ∧
    WellFormed (s.peers ⟨0, 11⟩).term (s.peers ⟨0, 11⟩).log ∧
    ∃ new, (t.peers ⟨0, 11⟩).log = (s.peers ⟨0, 11⟩).log ++ new ∧
      ∀ e ∈ new, e.term = (s.peers ⟨0, 11⟩).term := by
  obtain ⟨h, s, a, t, run, below, next, hlength, leads, leads', term⟩ := exists_step_of_replay duo
    (fun _ s _ ↦ TermsBelow duo s)
    [.tick ⟨0, 11⟩ 1 emptyUid, .tick ⟨0, 12⟩ 1 emptyUid, .tick ⟨0, 11⟩ 10000 emptyUid,
      .deliver ⟨0, 12⟩ 0, .deliver ⟨0, 11⟩ 1, .deliver ⟨0, 12⟩ 2, .deliver ⟨0, 11⟩ 3,
      .start ⟨0, 11⟩ ⟨0, 1⟩ ⟨0, 101⟩]
    (.deliver ⟨0, 11⟩ 5)
    (fun _ s _ t ↦ (t.peers ⟨0, 11⟩).log.length = 2 ∧ (s.peers ⟨0, 11⟩).role = .leader ∧
      (t.peers ⟨0, 11⟩).role = .leader ∧ (t.peers ⟨0, 11⟩).term = (s.peers ⟨0, 11⟩).term)
    (by decide +kernel)
  obtain ⟨hformed, extended⟩ := logs_well_formed run ⟨0, 11⟩
  exact ⟨h, s, a, t, run, next, hlength, hformed, extended a t below next leads leads' term⟩

/-- A candidate's term comes back to 0 while its log holds an entry of term 1. -/
theorem not_logs_well_formed : ¬ ∀ (cfg : Config) (h : Hist) (s : World) (p : Uid),
    Run cfg anyStep h s → p ∈ cfg.peerToEventMap →
    WellFormed (s.peers p).term (s.peers p).log ∧
      ∀ a t, s.step cfg a = some t → (s.peers p).role = .leader →
        (t.peers p).role = .leader → (t.peers p).term = (s.peers p).term →
        ∃ new, (t.peers p).log = (s.peers p).log ++ new ∧
          ∀ e ∈ new, e.term = (s.peers p).term := by
  intro claim
  obtain ⟨h, s, run, -, hp, e, he, hlt⟩ := exists_run_of_timeouts duo (fun _ ↦ True)
    [.tick ⟨0, 11⟩ 1 emptyUid, .tick ⟨0, 12⟩ 1 emptyUid, .tick ⟨0, 12⟩ 10000 emptyUid,
      .deliver ⟨0, 11⟩ 0, .tick ⟨0, 12⟩ 0 emptyUid, .tick ⟨0, 12⟩ 12001 emptyUid,
      .tick ⟨0, 11⟩ 10000 emptyUid, .deliver ⟨0, 12⟩ 2, .deliver ⟨0, 11⟩ 3, .deliver ⟨0, 12⟩ 4,
      .deliver ⟨0, 11⟩ 5, .start ⟨0, 11⟩ ⟨0, 1⟩ ⟨0, 101⟩, .deliver ⟨0, 11⟩ 7, .deliver ⟨0, 12⟩ 8,
      .deliver ⟨0, 12⟩ 1] []
    (p := ⟨0, 12⟩) (k := 2 ^ 32 - 2) (Nat.sub_le _ _)
    (fun peers ↦ ⟨0, 12⟩ ∈ duo.peerToEventMap ∧
      ∃ e ∈ (peers ⟨0, 12⟩).log, (peers ⟨0, 12⟩).term < e.term)
    (fun _ _ _ _ ↦ trivial) (by decide +kernel)
  have hformed := (claim duo h s _ (run.mono fun _ _ _ _ ↦ trivial) hp).1
  exact Nat.not_lt.mpr (hformed.term_le e he) hlt

end TrustedDcr.System
