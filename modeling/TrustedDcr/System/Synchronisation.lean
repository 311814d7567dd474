import TrustedDcr.Enclave.Bounds
import TrustedDcr.System.Cluster

/-!
# A follower that catches up

A follower that lacks the entry a request follows rejects it, and the leader answers
with the entry before and all that comes after. The rejected index goes down by one
a round and stops at the placeholder, which both logs begin with.
-/

namespace TrustedDcr.System
open TrustedDcr.Msg TrustedDcr.Enclave TrustedDcr.Theory

variable {o : Oracle}

/-- The follower answers the request and the leader each rejection, until a request is accepted:
the number of rejections, and the leader and the follower in the end.
`src/enclave/enclave.cpp:691–729,749–766`. -/
def synchronise (o : Nat → Oracle) :
    Nat → Peer → Peer → AppendReq → Except Fault (Option (Nat × Peer × Peer))
  | 0, _, _, _ => return none
  | rounds + 1, leader, follower, req => do
    let (_, s) ← recvAppendReq (o rounds) true req ⟨follower, [], [], []⟩
    match s.sent with
    | [.appendRsp rsp] =>
      if rsp.success then return some (0, leader, s.self)
      else
        let (_, t) ← recvAppendRsp (o rounds) true rsp ⟨leader, [], [], []⟩
        match t.sent with
        | [.appendReq req] =>
          let r ← synchronise o rounds t.self s.self req
          return r.map fun (rejected, ends) ↦ (rejected + 1, ends)
        | _ => return none
    | _ => return none

/-- The entry before the given index, and all entries from there on, as `recv_append_rsp` sends
them. -/
def Peer.missing (p : Peer) (target : Uid) (prev : Entry) (index : Nat) : AppendReq :=
  ⟨target, p.id, p.term, prev.term, prev.index, p.commitIndex, p.log.drop index⟩

/-- The rejection of a request, as `recv_append_req` sends it. -/
def Peer.rejection (p : Peer) (req : AppendReq) : AppendRsp :=
  ⟨req.source, p.id, p.term, req.prevTerm, req.prevIndex, false, 2 ^ 32 - 1⟩

/-- A leader answers a rejection. -/
theorem recvAppendRsp_of_rejected {p : Peer} {rsp : AppendRsp} {prev : Entry} {k : Nat}
    (leads : p.role = .leader) (addressed : rsp.target = p.id) (term : rsp.term = p.term)
    (rejected : rsp.success = false) (index : rsp.prevIndex = k + 1)
    (hprev : p.log[k]? = some prev) : recvAppendRsp o true rsp ⟨p, [], [], []⟩ =
      .ok (⟨⟩, ⟨p, [.appendReq (Peer.missing p rsp.source prev (k + 1))], [], []⟩) := by
  have verified := verifyMacAndOwnTerm_of_le (s := ⟨p, [], [], []⟩) rsp.source
    addressed (Nat.le_of_eq term)
  have read : p.entryAtInt (rsp.prevIndex - 1) = .ok prev := by
    unfold Peer.entryAtInt Peer.entryAt
    rw [if_neg (by omega), show (rsp.prevIndex - 1 : Int).toNat = k by omega, hprev]
  unfold recvAppendRsp
  rw [bind_of_ok verified, if_pos rfl, getSelf_bind, if_pos leads,
    if_neg (by simp [rejected]), bind_lift_of_ok read, index]
  rfl

/-- A follower looks for the entry before, with its timeout renewed at most. -/
theorem recvAppendReq_of_follower {q : Peer} {req : AppendReq} (follows : q.role = .follower)
    (addressed : req.target = q.id) (term : req.term = q.term) :
    ∃ q' : Peer, q'.node = q.node ∧ recvAppendReq o true req ⟨q, [], [], []⟩ =
      (if !q.termAndIndexExistInLog req.prevTerm req.prevIndex then
        macAndSendMsg (.appendRsp (Peer.rejection q req))
      else acceptEntries o req) ⟨q', [], [], []⟩ := by
  have verified := verifyMacAndOwnTerm_of_le (s := ⟨q, [], [], []⟩) req.source
    addressed (Nat.le_of_eq term)
  have current (rsp : Message) := verifyMsgTerm_of_le (s := ⟨q, [], [], []⟩) rsp
    (Nat.le_of_eq term.symm)
  unfold recvAppendReq
  rw [bind_of_ok verified, if_pos rfl, getSelf_bind, bind_of_ok (current _), if_pos rfl,
    if_pos follows]
  by_cases timer : uidsEqual req.source q.leader = true
  · rw [if_pos timer]
    refine ⟨_, ?_, rfl⟩
    dsimp only
    split <;> simp [Peer.node]
  · rw [if_neg timer]
    exact ⟨q, rfl, rfl⟩

/-- A follower that lacks the entry before rejects the request, and keeps its log. -/
theorem recvAppendReq_of_missing {q : Peer} {req : AppendReq} (follows : q.role = .follower)
    (addressed : req.target = q.id) (term : req.term = q.term)
    (missing : q.termAndIndexExistInLog req.prevTerm req.prevIndex = false) :
    ∃ q' : Peer, q'.node = q.node ∧ recvAppendReq o true req ⟨q, [], [], []⟩ =
      .ok (⟨⟩, ⟨q', [.appendRsp (Peer.rejection q req)], [], []⟩) := by
  obtain ⟨q', node, call⟩ := recvAppendReq_of_follower (o := o) follows addressed term
  refine ⟨q', node, ?_⟩
  rw [call, if_pos (by simp [missing])]
  rfl

/-- A follower that has the entry before takes over the entries. -/
theorem recvAppendReq_of_exists {q : Peer} {req : AppendReq} {e : Entry}
    (follows : q.role = .follower) (addressed : req.target = q.id) (term : req.term = q.term)
    (found : q.log[req.prevIndex]? = some e) (prevTerm : e.term = req.prevTerm) :
    ∃ (rsp : AppendRsp) (s : EnclaveState), rsp.success = true ∧
      recvAppendReq o true req ⟨q, [], [], []⟩ = .ok (⟨⟩, s) ∧ s.sent = [.appendRsp rsp] ∧
      s.self.log = q.log.take (req.prevIndex + 1) ++ req.entries := by
  have log : q.termAndIndexExistInLog req.prevTerm req.prevIndex = true := by
    unfold Peer.termAndIndexExistInLog
    rw [found]
    simp [prevTerm]
  obtain ⟨p, node, call⟩ := recvAppendReq_of_follower (o := o) follows addressed term
  have hlog : p.log = q.log := congrArg Node.log node
  have hrole : p.role = .follower := (congrArg Node.role node).trans follows
  have nonempty : p.log ≠ [] := by
    rw [hlog]
    exact List.ne_nil_of_mem (List.mem_of_getElem? found)
  obtain ⟨_, t, returns⟩ := returns_acceptEntries (o := o) (s := ⟨p, [], [], []⟩) req nonempty hrole
  have spec := acceptEntries_spec (o := o) (q := p) (u := ⟨p, [], [], []⟩)
    (addressed.trans (congrArg Node.id node).symm) (term.trans (congrArg Node.term node).symm)
    hrole (Or.inr hrole) rfl (hlog ▸ found) prevTerm
  obtain ⟨-, hnode, hsent⟩ := spec _ t returns
  refine ⟨_, t, rfl, ?_, hsent, ?_⟩
  · rw [call, if_neg (by simp [log])]
    exact returns
  · rw [← hlog]
    exact congrArg Node.log hnode

/-- The logs begin with the placeholder, their entries are numbered by position, and they agree up
to any entry of one index and term. -/
structure Alike (log log' : List Entry) : Prop where
  root : log[0]? = some getEmptyEntry
  root' : log'[0]? = some getEmptyEntry
  indexed : Indexed log
  indexed' : Indexed log'
  matching : ∀ {i : Nat} {e f : Entry}, log[i]? = some e → log'[i]? = some f → e.term = f.term →
    log.take (i + 1) = log'.take (i + 1)

/-- One round more, after a rejection. -/
theorem synchronise_of_rejected {o : Nat → Oracle} {p q : Peer} {req : AppendReq} {prev : Entry}
    {k : Nat} (leads : p.role = .leader) (follows : q.role = .follower)
    (term : p.term = q.term) (target : req.target = q.id) (source : req.source = p.id)
    (sent : req.term = p.term) (index : req.prevIndex = k + 1) (hprev : p.log[k]? = some prev)
    (missing : q.termAndIndexExistInLog req.prevTerm req.prevIndex = false) (rounds : Nat) :
    ∃ q' : Peer, q'.node = q.node ∧ synchronise o (rounds + 1) p q req =
      (synchronise o rounds p q' (Peer.missing p q'.id prev (k + 1))).map
        fun r ↦ r.map fun (rejected, ends) ↦ (rejected + 1, ends) := by
  obtain ⟨q', node, answer⟩ := recvAppendReq_of_missing (o := o rounds) follows target
    (sent.trans term) missing
  have addressed : (Peer.rejection q req).target = p.id := source
  have retry := recvAppendRsp_of_rejected (o := o rounds) leads addressed term.symm rfl index hprev
  have hid : q'.id = q.id := congrArg Node.id node
  refine ⟨q', node, ?_⟩
  rw [synchronise, answer]
  change (recvAppendRsp (o rounds) true (Peer.rejection q req) ⟨p, [], [], []⟩ >>= _) = _
  rw [retry, hid]
  rfl

/-- No round more, once the entry before is there: what follows it is the rest of the leader's
log. -/
theorem synchronise_of_accepted {o : Nat → Oracle} {p q : Peer} {prev : Entry} {k : Nat}
    (follows : q.role = .follower) (term : p.term = q.term) (alike : Alike p.log q.log)
    (hprev : p.log[k]? = some prev) (found : q.termAndIndexExistInLog prev.term k = true)
    (rounds : Nat) : ∃ q', q'.log = p.log ∧
      synchronise o (rounds + 1) p q (Peer.missing p q.id prev (k + 1)) =
        .ok (some (0, p, q')) := by
  have index : prev.index = k := alike.indexed _ _ hprev
  obtain ⟨e, he, hterm⟩ := exists_of_termAndIndexExistInLog found
  have log : q.log.take (k + 1) ++ p.log.drop (k + 1) = p.log := by
    rw [← alike.matching hprev he hterm.symm, List.take_append_drop]
  have addressed : (Peer.missing p q.id prev (k + 1)).target = q.id := rfl
  obtain ⟨rsp, s, success, answer, sent, hlog⟩ := recvAppendReq_of_exists (o := o rounds)
    follows addressed term (index.symm ▸ he) hterm
  refine ⟨s.self, ?_, ?_⟩
  · rw [hlog, ← log]
    change q.log.take (prev.index + 1) ++ _ = _
    rw [index]
    rfl
  · rw [synchronise, answer]
    change (match s.sent with | [.appendRsp rsp] => _ | _ => _) = _
    rw [sent]
    dsimp only
    rw [if_pos success]
    rfl

/-- From a request that the leader has made of its log, as many rejections follow at most as its
index says. -/
theorem synchronise_of_missing {o : Nat → Oracle} {p q : Peer} {prev : Entry} {k : Nat}
    (leads : p.role = .leader) (follows : q.role = .follower) (term : p.term = q.term)
    (alike : Alike p.log q.log) (hprev : p.log[k]? = some prev) {rounds : Nat}
    (enough : k < rounds) : ∃ n q', n ≤ k ∧ q'.log = p.log ∧
      synchronise o rounds p q (Peer.missing p q.id prev (k + 1)) = .ok (some (n, p, q')) := by
  induction k generalizing q prev rounds with
  | zero =>
    obtain ⟨rounds, rfl⟩ : ∃ r, rounds = r + 1 := ⟨rounds - 1, by omega⟩
    obtain rfl := Option.some.inj (alike.root.symm.trans hprev)
    have found : q.termAndIndexExistInLog getEmptyEntry.term 0 = true := by
      unfold Peer.termAndIndexExistInLog
      rw [alike.root']
      rfl
    obtain ⟨q', log, run⟩ := synchronise_of_accepted (o := o) follows term alike hprev found rounds
    exact ⟨0, q', Nat.le_refl 0, log, run⟩
  | succ k ih =>
    obtain ⟨rounds, rfl⟩ : ∃ r, rounds = r + 1 := ⟨rounds - 1, by omega⟩
    have index : prev.index = k + 1 := alike.indexed _ _ hprev
    cases found : q.termAndIndexExistInLog prev.term (k + 1) with
    | true =>
      obtain ⟨q', log, run⟩ := synchronise_of_accepted (o := o) follows term alike hprev found
        rounds
      exact ⟨0, q', Nat.zero_le _, log, run⟩
    | false =>
      obtain ⟨prev', hprev'⟩ : ∃ prev', p.log[k]? = some prev' := by
        have := (List.getElem?_eq_some_iff.mp hprev).1
        exact ⟨_, List.getElem?_eq_getElem (by omega)⟩
      have addressed : (Peer.missing p q.id prev (k + 1 + 1)).target = q.id := rfl
      obtain ⟨q', node, step⟩ := synchronise_of_rejected (o := o) leads follows term addressed rfl
        rfl index hprev' (by rw [← index] at found; exact found) rounds
      have hlog : q'.log = q.log := congrArg Node.log node
      obtain ⟨n, q'', hn, log, run⟩ := ih (q := q') ((congrArg Node.role node).trans follows)
        (term.trans (congrArg Node.term node).symm) (hlog ▸ alike) hprev'
        (show k < rounds by omega)
      refine ⟨n + 1, q'', Nat.succ_le_succ hn, log, ?_⟩
      rw [step, run]
      rfl

/-- From a rejected request with a previous index in the leader's log, the leader and the follower
come to an accepted one after as many rejections at most as the index says, reading inside
their logs, and end with the same log. `src/enclave/enclave.cpp:691–729,749–766`. -/
theorem synchronise_converges (o : Nat → Oracle) {p q : Peer} {req : AppendReq}
    (leads : p.role = .leader) (follows : q.role = .follower) (term : p.term = q.term)
    (alike : Alike p.log q.log) (target : req.target = q.id) (source : req.source = p.id)
    (sent : req.term = p.term) (pos : 1 ≤ req.prevIndex) (inside : req.prevIndex < p.log.length)
    (rejected : q.termAndIndexExistInLog req.prevTerm req.prevIndex = false) :
    ∃ n p' q', synchronise o (req.prevIndex + 1) p q req = .ok (some (n, p', q')) ∧
      1 ≤ n ∧ n ≤ req.prevIndex ∧ p'.log = p.log ∧ q'.log = p.log := by
  obtain ⟨k, index⟩ : ∃ k, req.prevIndex = k + 1 := ⟨req.prevIndex - 1, by omega⟩
  have hprev : p.log[k]? = some p.log[k] := List.getElem?_eq_getElem (by omega)
  obtain ⟨q', node, step⟩ := synchronise_of_rejected (o := o) leads follows term target source
    sent index hprev rejected (k + 1)
  have hlog : q'.log = q.log := congrArg Node.log node
  obtain ⟨n, q'', hn, log, run⟩ := synchronise_of_missing (o := o) (q := q') leads
    ((congrArg Node.role node).trans follows) (term.trans (congrArg Node.term node).symm)
    (hlog ▸ alike) hprev (Nat.lt_succ_self k)
  refine ⟨n + 1, p, q'', ?_, by omega, by omega, rfl, log⟩
  rw [index, step, run]
  rfl

/-- A follower with an entry of an earlier leader rejects twice. -/
theorem earlier_entry_replaced :
    let leader : Peer := { Peer.zero with
      id := ⟨0, 11⟩, role := .leader, term := 2
      log := [getEmptyEntry, ⟨1, 2, ⟨0, 1⟩, ⟨0, 11⟩, ⟨⟨0, 101⟩, .exec⟩⟩,
        ⟨2, 2, ⟨0, 1⟩, ⟨0, 11⟩, ⟨⟨0, 102⟩, .exec⟩⟩] }
    let follower : Peer := { Peer.zero with
      id := ⟨0, 12⟩, term := 2
      log := [getEmptyEntry, ⟨1, 1, ⟨0, 1⟩, ⟨0, 12⟩, ⟨⟨0, 201⟩, .exec⟩⟩] }
    ∃ n p' q', synchronise (fun _ ↦ silent) 3 leader follower
        ⟨⟨0, 12⟩, ⟨0, 11⟩, 2, 2, 2, 0, []⟩ = .ok (some (n, p', q')) ∧
      1 ≤ n ∧ n ≤ 2 ∧ p'.log = leader.log ∧ q'.log = leader.log := by
  intro leader follower
  have alike : Alike leader.log follower.log := by
    refine ⟨rfl, rfl, ?_, ?_, ?_⟩
    · rintro (_ | _ | _ | i) e he <;> simp [leader] at he <;> subst he <;> rfl
    · rintro (_ | _ | i) e he <;> simp [follower] at he <;> subst he <;> rfl
    · rintro (_ | _ | i) e f he hf same
      · rfl
      · simp [leader] at he
        simp [follower] at hf
        simp [← he, ← hf] at same
      · simp [follower] at hf
  exact @synchronise_converges (fun _ ↦ silent) leader follower
    ⟨⟨0, 12⟩, ⟨0, 11⟩, 2, 2, 2, 0, []⟩ rfl rfl rfl alike rfl rfl rfl (by decide) (by decide)
    (by decide)

end TrustedDcr.System
