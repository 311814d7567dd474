import TrustedDcr.System.Network
import TrustedDcr.Theory.Raft.Safety

/-!
# A cluster as peers that elect and replicate

`Sim` relates the peers of one cluster and the letters between them to the
records of `Theory.Raft`: what a message says is backed by what was voted,
elected, logged and acknowledged. The conditions on steps under which the
relation is kept are stated here: they are what the calls do not check.
-/

namespace TrustedDcr.System
open TrustedDcr.Msg TrustedDcr.Dcr TrustedDcr.Enclave TrustedDcr.Theory

/-! ### Conditions on steps -/

/-- The step delivers to the candidate `q` of term `T` the vote of `v` for this term. -/
def countsVote (q : Uid) (T : Nat) (v : Uid) (s : World) (a : Action) : Bool :=
  match a.call with
  | .recv (.electionRsp rsp) => a.peer == q && uidsEqual rsp.target (s.peers q).id &&
      (s.peers q).role == .candidate && (s.peers q).term == T && rsp.success && rsp.term == T &&
      rsp.source == v
  | _ => false

/-- Such a vote was delivered. -/
def Counted (h : Hist) (q : Uid) (T : Nat) (v : Uid) : Prop :=
  ∃ step ∈ h, countsVote q T v step.1 step.2 = true

instance (h : Hist) (q : Uid) (T : Nat) (v : Uid) : Decidable (Counted h q T v) :=
  inferInstanceAs (Decidable (∃ step ∈ h, countsVote q T v step.1 step.2 = true))

/-- A candidate counts votes of its own term only, and each voter once; a vote goes to a peer with
an identifier. -/
def CountsVotesOnce (h : Hist) (s : World) (a : Action) : Prop :=
  match a.call with
  | .recv (.electionRsp rsp) =>
      rsp.target = (s.peers a.peer).id → (s.peers a.peer).role = .candidate →
      rsp.term ≤ (s.peers a.peer).term → rsp.success = true →
      rsp.term = (s.peers a.peer).term ∧ ¬Counted h a.peer rsp.term rsp.source
  | .recv (.electionReq req) => req.source ≠ emptyUid
  | _ => True

instance (h : Hist) (s : World) (a : Action) : Decidable (CountsVotesOnce h s a) := by
  unfold CountsVotesOnce
  induction a.call using Call.casesOn with
  | recv m => induction m using Message.casesOn <;> infer_instance
  | _ => infer_instance

/-- What elections and log matching rest on. -/
def ElectsFairly (cfg : Config) (h : Hist) (s : World) (a : Action) : Prop :=
  TermsBelow cfg s ∧ CountsVotesOnce h s a

instance (cfg : Config) (h : Hist) (s : World) (a : Action) : Decidable (ElectsFairly cfg h s a) :=
  inferInstanceAs (Decidable (_ ∧ _))

/-- The step delivers to `q` the confirmation of `v` that it has the log of term `T` up to
`index`. -/
def confirms (q : Uid) (T : Nat) (v : Uid) (index : Nat) (a : Action) : Bool :=
  match a.call with
  | .recv (.appendRsp rsp) => a.peer == q && uidsEqual rsp.target q && rsp.success &&
      rsp.term == T && rsp.source == v && index ≤ rsp.lastIndex
  | _ => false

/-- Such a confirmation was delivered. -/
def Confirmed (h : Hist) (q : Uid) (T : Nat) (v : Uid) (index : Nat) : Prop :=
  ∃ step ∈ h, confirms q T v index step.2 = true

instance (h : Hist) (q : Uid) (T : Nat) (v : Uid) (index : Nat) :
    Decidable (Confirmed h q T v index) :=
  inferInstanceAs (Decidable (∃ step ∈ h, confirms q T v index step.2 = true))

/-- The other members that confirmed the entry at an index to a leader. -/
def confirmers (h : Hist) (p : Peer) (index : Nat) : List Uid :=
  (otherMembers p).filter fun v ↦ Confirmed h p.id p.term v index

/-- A leader commits what at least half of its cluster confirmed to it in its term, and a follower
removes no entry of the leader it follows. -/
def CommitsConfirmed (h : Hist) (s : World) (a : Action) : Prop :=
  match a.call with
  | .recv (.appendRsp rsp) => ∀ index ∈ (s.peers a.peer).commits rsp,
      (s.peers a.peer).clusterSize ≤
        2 * ((confirmers ((s, a) :: h) (s.peers a.peer) index).length + 1)
  | .recv (.appendReq req) => (s.peers a.peer).accepts req = true →
      ∀ e ∈ (s.peers a.peer).log.drop (req.prevIndex + 1 + req.entries.length), e.term ≠ req.term
  | _ => True

instance (h : Hist) (s : World) (a : Action) : Decidable (CommitsConfirmed h s a) := by
  unfold CommitsConfirmed
  induction a.call using Call.casesOn with
  | recv m => induction m using Message.casesOn <;> infer_instance
  | _ => infer_instance

/-- What committed entries rest on. -/
def CommitsSafely (cfg : Config) (h : Hist) (s : World) (a : Action) : Prop :=
  ElectsFairly cfg h s a ∧ CommitsConfirmed h s a

instance (cfg : Config) (h : Hist) (s : World) (a : Action) : Decidable (CommitsSafely cfg h s a) :=
  inferInstanceAs (Decidable (_ ∧ _))

end TrustedDcr.System

namespace TrustedDcr.Enclave

/-- The role as replication has it. -/
def Role.raft : Role → Theory.Raft.Role
  | .follower => .follower
  | .candidate => .candidate
  | .leader => .leader

/-- Only a leader is one in the abstract protocol. -/
@[simp] theorem Role.raft_eq_leader {r : Role} : r.raft = .leader ↔ r = .leader := by
  cases r <;> simp [Role.raft]

/-- Only a candidate is one in the abstract protocol. -/
@[simp] theorem Role.raft_eq_candidate {r : Role} : r.raft = .candidate ↔ r = .candidate := by
  cases r <;> simp [Role.raft]

end TrustedDcr.Enclave

namespace TrustedDcr.System
open TrustedDcr.Msg TrustedDcr.Dcr TrustedDcr.Enclave TrustedDcr.Theory

/-! ### The relation -/

/-- The records of one cluster. -/
abbrev Records := Raft.State Uid Entry

/-- Every entry carries its position. -/
def Indexed (log : List Entry) : Prop := ∀ (i : Nat) (e : Entry), log[i]? = some e → e.index = i

/-- The records bear out what a message says, about commitment only if `D` holds. -/
def Backs (D : Prop) (M : Finset Uid) (g : Records) : Message → Prop
  | .appendReq req => g.elected req.term = some req.source ∧
      ∃ k, (g.base req.term).length ≤ k ∧ k ≤ (g.tlog req.term).length ∧ req.prevIndex < k ∧
        (∃ prev, (g.tlog req.term)[req.prevIndex]? = some prev ∧ prev.term = req.prevTerm) ∧
        req.entries = ((g.tlog req.term).take k).drop (req.prevIndex + 1) ∧
        (D → req.commitIndex < k ∧ g.Covered Entry.term M req.term
          ((g.tlog req.term).take (req.commitIndex + 1)))
  | .appendRsp rsp => rsp.success = true → rsp.lastIndex < g.acked rsp.term rsp.source
  | .electionReq req => ∃ l last, g.vote req.term req.source = some (req.source, l) ∧
      l.getLast? = some last ∧ last.term = req.lastTerm ∧ l.length = req.lastIndex + 1
  | .electionRsp rsp => rsp.success = true →
      ∃ l, g.vote rsp.term rsp.source = some (rsp.target, l)
  | _ => True

/-- The records agree with one member, whose voters so far were `seen`. -/
structure Mirrors (M : Finset Uid) (g : Records) (seen : Nat → Uid → Prop) (q : Uid) (n : Node) :
    Prop where
  term : g.term q = n.term
  role : g.role q = n.role.raft
  log : g.log q = n.log
  commit : g.commit q = n.commitIndex
  free : n.role = .follower → n.endorsement = emptyUid → g.vote n.term q = none
  votes : n.role = .candidate → ∃ V ⊆ M, V.card = n.electionVotes ∧
    ∀ v ∈ V, (∃ l, g.vote n.term v = some (q, l)) ∧ (v = q ∨ seen n.term v)
  acked : n.role = .leader → n.log.length ≤ g.acked n.term q
  alone : M.card = 1 → n.term = 0 ∧ n.role = .leader

/-- The records agree with every member of a cluster and every letter from one. -/
structure Sim (D : Prop) (M : Finset Uid) (g : Records) (seen : Uid → Nat → Uid → Prop)
    (nodes : Uid → Node) (net : List Message) : Prop where
  sound : Raft.Sound Entry.term M g
  safe : D → Raft.Safe Entry.term M g
  indexed : ∀ T, Indexed (g.tlog T)
  peers : ∀ q ∈ M, Mirrors M g (seen q) q (nodes q)
  letters : ∀ m ∈ net, ∀ l, m.letter = some l → l.source ∈ M → Backs D M g m

section
variable {D : Prop} {M : Finset Uid} {g g' : Records} {seen : Uid → Nat → Uid → Prop}
  {nodes : Uid → Node} {net : List Message}

/-- An empty log is indexed. -/
theorem Indexed.nil : Indexed [] := fun _ _ h ↦ nomatch h

/-- A beginning of an indexed log is indexed. -/
theorem Indexed.of_isPrefix (l l' : List Entry) (hp : l' <+: l) (h : Indexed l) : Indexed l' := by
  intro i e he
  exact h i e (getElem?_of_isPrefix hp he)

/-- The next position goes to the next entry. -/
theorem Indexed.append {l : List Entry} (h : Indexed l) {e : Entry} (he : e.index = l.length) :
    Indexed (l ++ [e]) := by
  intro i e' hi
  rcases getElem?_concat_cases hi with ⟨-, hi⟩ | ⟨rfl, rfl⟩
  · exact h i e' hi
  · exact he

/-- What is borne out stays so when the records grow. -/
theorem Backs.mono (hx : g.Ext g') {m : Message} (h : Backs D M g m) : Backs D M g' m := by
  cases m with
  | appendReq req =>
    obtain ⟨he, k, hb, hk, hprev, ⟨prev, hp, hpt⟩, hentries, hcommit⟩ := h
    have hpre := hx.tlog req.term
    have htake {i : Nat} (hi : i ≤ k) : (g'.tlog req.term).take i = (g.tlog req.term).take i :=
      take_eq_of_isPrefix hpre (hi.trans hk)
    refine ⟨hx.elected he, k, ?_, hk.trans hpre.length_le, hprev, ⟨prev, ?_, hpt⟩, ?_, fun hD ↦ ?_⟩
    · rwa [hx.base he]
    · exact getElem?_of_isPrefix hpre hp
    · rw [hentries, htake (Nat.le_refl k)]
    · obtain ⟨hlt, hcov⟩ := hcommit hD
      rw [htake hlt]
      exact ⟨hlt, hcov.mono hx (Nat.le_refl _) List.prefix_rfl⟩
  | appendRsp rsp => exact fun hs ↦ (h hs).trans_le (hx.acked _ _)
  | electionReq req =>
    obtain ⟨l, last, hv, hrest⟩ := h
    exact ⟨l, last, hx.vote hv, hrest⟩
  | electionRsp rsp =>
    intro hs
    obtain ⟨l, hv⟩ := h hs
    exact ⟨l, hx.vote hv⟩
  | commandReq | commandRsp | pollReq | pollRsp | logReq | logRsp => trivial

/-- More voters may have been seen. -/
theorem Mirrors.mono {seen seen' : Nat → Uid → Prop} {q : Uid} {n : Node}
    (h : Mirrors M g seen q n) (hs : ∀ T v, seen T v → seen' T v) : Mirrors M g seen' q n where
  __ := h
  votes hc := by
    obtain ⟨V, hV, hcard, hv⟩ := h.votes hc
    exact ⟨V, hV, hcard, fun v hvV ↦ ⟨(hv v hvV).1, (hv v hvV).2.imp_right (hs _ _)⟩⟩

/-- An action of another peer changes nothing for this one. -/
theorem Mirrors.act {seen : Nat → Uid → Prop} {q : Uid} {n : Node} (h : Mirrors M g seen q n)
    {a : Raft.Act Uid Entry} (hx : g.Ext (g.act a)) (hq : q ≠ a.actor) :
    Mirrors M (g.act a) seen q n := by
  obtain ⟨hterm, hrole, hlog, hcommit, hvote⟩ := g.act_of_ne hq
  constructor
  case term => exact hterm.trans h.term
  case role => exact hrole.trans h.role
  case log => exact hlog.trans h.log
  case commit => exact hcommit.trans h.commit
  case free => exact fun hf he ↦ (hvote _).trans (h.free hf he)
  case votes =>
    intro hc
    obtain ⟨V, hV, hcard, hv⟩ := h.votes hc
    refine ⟨V, hV, hcard, fun v hvV ↦ ⟨?_, (hv v hvV).2⟩⟩
    obtain ⟨l, hl⟩ := (hv v hvV).1
    exact ⟨l, hx.vote hl⟩
  case acked => exact fun hl ↦ (h.acked hl).trans (hx.acked _ _)
  case alone => exact h.alone

/-- More voters may have been seen by everyone. -/
theorem Sim.mono {seen' : Uid → Nat → Uid → Prop} (h : Sim D M g seen nodes net)
    (hs : ∀ q T v, seen q T v → seen' q T v) : Sim D M g seen' nodes net where
  __ := h
  peers q hq := (h.peers q hq).mono (hs q)

/-- A guarded action that its peer and the new letters agree with keeps the relation. -/
theorem Sim.act (h : Sim D M g seen nodes net) {a : Raft.Act Uid Entry}
    (guard : a.Guard Entry.term M g) (careful : D → a.Careful Entry.term M g)
    (appended : ∀ p e, a = .append p e → e.index = (g.log p).length) {n : Node}
    (self : Mirrors M (g.act a) (seen a.actor) a.actor n) {ms : List Message}
    (sent : ∀ m ∈ ms, Backs D M (g.act a) m) :
    Sim D M (g.act a) seen (Function.update nodes a.actor n) (net ++ ms) := by
  have hx := h.sound.ext guard
  constructor
  case sound => exact h.sound.act guard
  case safe => exact fun hD ↦ (h.safe hD).act h.sound guard (careful hD)
  case indexed =>
    refine h.sound.tlog_act Indexed.nil Indexed.of_isPrefix h.indexed fun p e ha ↦ ?_
    exact Indexed.append (h.sound.of_tlog Indexed.nil Indexed.of_isPrefix h.indexed p)
      (appended p e ha)
  case peers =>
    intro q hq
    rcases eq_or_ne q a.actor with rfl | hne
    · rw [Function.update_self]
      exact self
    · rw [Function.update_of_ne hne]
      exact (h.peers q hq).act hx hne
  case letters =>
    intro m hm l hl hs
    rcases List.mem_append.mp hm with hm | hm
    · exact (h.letters m hm l hl hs).mono hx
    · exact sent m hm

/-- The relation survives a change of one node that the records agree with, and new letters. -/
theorem Sim.tell (h : Sim D M g seen nodes net) {p : Uid} {n : Node}
    (self : Mirrors M g (seen p) p n) {ms : List Message}
    (sent : ∀ m ∈ ms, ∀ l, m.letter = some l → l.source ∈ M → Backs D M g m) :
    Sim D M g seen (Function.update nodes p n) (net ++ ms) where
  sound := h.sound
  safe := h.safe
  indexed := h.indexed
  peers q hq := by
    rcases eq_or_ne q p with rfl | hne
    · rwa [Function.update_self]
    · rw [Function.update_of_ne hne]
      exact h.peers q hq
  letters m hm l hl hs := by
    rcases List.mem_append.mp hm with hm | hm
    · exact h.letters m hm l hl hs
    · exact sent m hm l hl hs

end

end TrustedDcr.System
