import TrustedDcr.Enclave.Commands

/-!
# Outstanding commands

`missing_resp` holds one request for each peer, so a request filed for a peer takes
the place of the one that was filed for it before. What a response does to the
map: a redirect files a request anew, an answer removes the one that is answered,
and the handling of the answer files what it sends.
-/

namespace TrustedDcr.Enclave
open TrustedDcr.Msg TrustedDcr.Dcr TrustedDcr.Dcr.DcrWorkflow TrustedDcr.Theory

variable {o : Oracle}

/-- `missing_resp` after each of the requests is filed under its target, in turn. -/
def fileAll (reqs : List CommandReq) (missing : UidMap CommandReq) : UidMap CommandReq :=
  reqs.foldl (fun m req ↦ m.insert req.target req) missing

/-- Requests of which those to one peer are the same request. -/
def Distinct (reqs : List CommandReq) : Prop :=
  ∀ req ∈ reqs, ∀ req' ∈ reqs, req.target = req'.target → req = req'

/-- A peer that is filed a request has it outstanding, any other what it had before. -/
theorem getElem?_fileAll {reqs : List CommandReq} (distinct : Distinct reqs)
    (missing : UidMap CommandReq) (k : Uid) (req : CommandReq) :
    (fileAll reqs missing)[k]? = some req ↔ (req ∈ reqs ∧ req.target = k) ∨
      (∀ req' ∈ reqs, req'.target ≠ k) ∧ missing[k]? = some req := by
  unfold fileAll
  induction reqs generalizing missing with
  | nil => simp
  | cons first reqs ih =>
    have rest : Distinct reqs := fun r hr r' hr' ↦
      distinct r (List.mem_cons_of_mem _ hr) r' (List.mem_cons_of_mem _ hr')
    rw [List.foldl_cons, ih rest, getElem?_insert_uid]
    by_cases hk : first.target = k
    · rw [if_pos hk, Option.some.injEq]
      constructor
      · rintro (⟨hr, ht⟩ | ⟨-, rfl⟩)
        · exact Or.inl ⟨List.mem_cons_of_mem _ hr, ht⟩
        · exact Or.inl ⟨List.mem_cons_self, hk⟩
      · rintro (⟨hr, ht⟩ | ⟨hother, -⟩)
        · obtain rfl := distinct first List.mem_cons_self req hr (hk.trans ht.symm)
          by_cases hagain : ∃ r' ∈ reqs, r'.target = k
          · obtain ⟨r', hr', ht'⟩ := hagain
            obtain rfl := distinct first List.mem_cons_self r' (List.mem_cons_of_mem _ hr')
              (hk.trans ht'.symm)
            exact Or.inl ⟨hr', hk⟩
          · exact Or.inr ⟨fun r' hr' ht' ↦ hagain ⟨r', hr', ht'⟩, rfl⟩
        · exact absurd hk (hother first List.mem_cons_self)
    · rw [if_neg hk]
      simp only [List.mem_cons, forall_eq_or_imp, hk, ne_eq, not_false_eq_true, true_and]
      refine or_congr_left (and_congr_left fun ht ↦ ?_)
      constructor
      · exact Or.inr
      · rintro (rfl | hr)
        · exact absurd ht hk
        · exact hr

namespace Peer

/-- The request with a tag to a peer, on behalf of the own event. -/
def command (p : Peer) (tag : CommandTag) (target : Uid) : CommandReq :=
  ⟨target, p.id, tag, p.clusterEvent⟩

/-- The peer the loops over events send to, as the peer stands. `src/enclave/enclave.cpp:246–256`. -/
def leaderFor (p : Peer) (o : Oracle) (tag : CommandTag) (event : Uid) : Uid :=
  match p.leaderMap[event]? with
  | some leader => leader
  | none =>
    (((p.peerToEventMap.toList.filter fun eventPeer ↦ uidsEqual eventPeer.2 event).map
      Prod.fst).getLast?).getD (o.junkLeader tag event)

/-- Naming the leader of an event that has none changes the leader of no other. -/
theorem leaderFor_insert {p : Peer} {event peer : Uid}
    (none : p.leaderMap[event]? = none)
    (last : ((p.peerToEventMap.toList.filter fun eventPeer ↦
      uidsEqual eventPeer.2 event).map Prod.fst).getLast? = some peer) (tag : CommandTag) :
    { p with leaderMap := p.leaderMap.insert event peer }.leaderFor o tag =
      p.leaderFor o tag := by
  funext x
  unfold leaderFor
  dsimp only
  rw [getElem?_insert_uid]
  by_cases hx : event = x
  · subst hx
    rw [if_pos rfl, none, last]
    rfl
  · rw [if_neg hx]

/-- The requests with a tag to the clusters of the events. -/
def commandsTo (p : Peer) (o : Oracle) (tag : CommandTag) (events : List Uid) : List CommandReq :=
  events.map fun event ↦ p.command tag (p.leaderFor o tag event)

/-- Requests that differ in their targets alone are distinct. -/
theorem distinct_map_command (p : Peer) (tag : CommandTag) (targets : List Uid) :
    Distinct (targets.map (p.command tag)) := by
  intro req hreq req' hreq' ht
  obtain ⟨k, -, rfl⟩ := List.mem_map.mp hreq
  obtain ⟨k', -, rfl⟩ := List.mem_map.mp hreq'
  exact congrArg (p.command tag) ht

/-- The commands sent in a loop over events are the same where two go to one peer. -/
theorem distinct_commandsTo (p : Peer) (tag : CommandTag) (events : List Uid) :
    Distinct (p.commandsTo o tag events) := by
  unfold commandsTo
  rw [← Function.comp_def (p.command tag), ← List.map_map]
  exact p.distinct_map_command tag _

end Peer

/-! ### Filing -/

/-- The requests are filed in turn, and the leaders that were looked up for them stay named. -/
def Filed (o : Oracle) (reqs : List CommandReq) (s t : EnclaveState) : Prop :=
  (∃ leaders, t = { s with self := { s.self with
    leaderMap := leaders
    missingResp := fileAll reqs s.self.missingResp } }) ∧
  ∀ tag, t.self.leaderFor o tag = s.self.leaderFor o tag

/-- Requests filed after others are filed with them, in turn. -/
protected theorem Filed.trans {reqs reqs' : List CommandReq} {s t u : EnclaveState}
    (st : Filed o reqs s t) (tu : Filed o reqs' t u) : Filed o (reqs ++ reqs') s u := by
  obtain ⟨⟨_, rfl⟩, hst⟩ := st
  obtain ⟨⟨leaders, rfl⟩, htu⟩ := tu
  refine ⟨⟨leaders, ?_⟩, fun tag ↦ (htu tag).trans (hst tag)⟩
  unfold fileAll
  rw [List.foldl_append]

private theorem filed_eventLeader (tag : CommandTag) (event : Uid) (s : EnclaveState) :
    wp (eventLeader o tag event)
      (fun leader t ↦ leader = s.self.leaderFor o tag event ∧ Filed o [] s t) s := by
  unfold eventLeader
  rw [wp_bind, wp_getSelf]
  cases hleader : s.self.leaderMap[event]? with
  | some leader =>
    refine wp_pure.mpr ⟨?_, ⟨_, rfl⟩, fun _ ↦ rfl⟩
    unfold Peer.leaderFor
    rw [hleader]
  | none =>
    dsimp only
    split
    · next peer hpeer =>
      rw [wp_bind, wp_modifySelf, wp_pure]
      refine ⟨?_, ⟨_, rfl⟩, Peer.leaderFor_insert hleader hpeer⟩
      unfold Peer.leaderFor
      rw [hleader, hpeer]
      rfl
    · next hpeer =>
      refine wp_pure.mpr ⟨?_, ⟨_, rfl⟩, fun _ ↦ rfl⟩
      unfold Peer.leaderFor
      rw [hleader, hpeer]
      rfl

private theorem filed_fileCommand (tag : CommandTag) (event : Uid) (s : EnclaveState) :
    wp (fileCommand o tag event) (fun m t ↦
      m = .commandReq (s.self.command tag (s.self.leaderFor o tag event)) ∧
      Filed o (s.self.commandsTo o tag [event]) s t) s := by
  unfold fileCommand
  rw [wp_bind]
  refine wp_mono (filed_eventLeader tag event s) ?_
  rintro _ t ⟨rfl, hst⟩
  rw [wp_bind, wp_getSelf, wp_bind, wp_modifySelf, wp_pure]
  obtain ⟨⟨leaders, rfl⟩, hleaders⟩ := hst
  exact ⟨rfl, ⟨leaders, rfl⟩, hleaders⟩

private theorem filed_mapM_fileCommand (tag : CommandTag) (events : List Uid) (s : EnclaveState) :
    wp (events.mapM (fileCommand o tag)) (fun ms t ↦
      ms = (s.self.commandsTo o tag events).map .commandReq ∧
      Filed o (s.self.commandsTo o tag events) s t) s := by
  induction events generalizing s with
  | nil => exact wp_pure.mpr ⟨rfl, ⟨_, rfl⟩, fun _ ↦ rfl⟩
  | cons event events ih =>
    rw [List.mapM_cons, wp_bind]
    refine wp_mono (filed_fileCommand tag event s) ?_
    rintro _ t ⟨rfl, hst⟩
    rw [wp_bind]
    refine wp_mono (ih t) ?_
    rintro _ u ⟨rfl, htu⟩
    have same : t.self.commandsTo o tag events = s.self.commandsTo o tag events := by
      unfold Peer.commandsTo
      rw [hst.2 tag]
      obtain ⟨⟨leaders, rfl⟩, -⟩ := hst
      rfl
    rw [same] at htu ⊢
    exact wp_pure.mpr ⟨rfl, hst.trans htu⟩

/-- What the common loop sends and files. -/
theorem filed_sendCommands (tag : CommandTag) (events : List Uid) (s : EnclaveState) :
    wp (sendCommands o tag events) (fun _ t ↦ ∃ u,
      Filed o (s.self.commandsTo o tag events) s u ∧
      t = { u with sent := s.sent ++ (s.self.commandsTo o tag events).map .commandReq }) s := by
  unfold sendCommands
  rw [wp_bind]
  refine wp_mono (filed_mapM_fileCommand tag events s) ?_
  rintro _ u ⟨rfl, hsu⟩
  refine wp_macAndBroadcastMsgs.mpr ⟨u, hsu, ?_⟩
  obtain ⟨⟨leaders, rfl⟩, -⟩ := hsu
  rfl

/-! ### Redirects and answers -/

/-- `missing_resp` after a redirect. -/
def Peer.redirected (p : Peer) (rsp : CommandRsp) : UidMap CommandReq :=
  match p.missingResp[rsp.source]? with
  | some req => (p.missingResp.erase rsp.source).insert rsp.leader req
  | none => p.missingResp

/-- `missing_resp` without the request the response answers. -/
def Peer.cleared (p : Peer) (rsp : CommandRsp) : UidMap CommandReq :=
  match p.missingResp[rsp.source]? with
  | some req => if tagsEqual req.tag rsp.tag then p.missingResp.erase rsp.source else p.missingResp
  | none => p.missingResp

namespace Peer

variable {p : Peer} {rsp : CommandRsp}

/-- A redirect moves the request of its source to the leader it names. -/
theorem getElem?_redirected (k : Uid) : (p.redirected rsp)[k]? =
    if rsp.leader = k ∧ rsp.source ∈ p.missingResp then p.missingResp[rsp.source]?
    else if rsp.source = k then none else p.missingResp[k]? := by
  unfold redirected
  simp only [Std.ExtTreeMap.mem_iff_isSome_getElem?]
  cases hsource : p.missingResp[rsp.source]? with
  | none =>
    by_cases hk : rsp.source = k
    · subst hk
      simp [hsource]
    · simp [hk]
  | some req =>
    dsimp only
    rw [getElem?_insert_uid, getElem?_erase_uid]
    simp

/-- The request that is answered is the one outstanding from the source with the response's tag. -/
theorem getElem?_cleared (k : Uid) (req : CommandReq) : (p.cleared rsp)[k]? = some req ↔
    p.missingResp[k]? = some req ∧ (k = rsp.source → req.tag ≠ rsp.tag) := by
  unfold cleared
  cases hsource : p.missingResp[rsp.source]? with
  | none =>
    refine ⟨fun h ↦ ⟨h, ?_⟩, And.left⟩
    rintro rfl
    exact nomatch hsource.symm.trans h
  | some answered =>
    dsimp only
    by_cases htag : tagsEqual answered.tag rsp.tag = true
    · rw [if_pos htag, getElem?_erase_uid]
      rw [tagsEqual_iff] at htag
      by_cases hk : rsp.source = k
      · subst hk
        rw [if_pos rfl, hsource]
        constructor
        · exact fun h ↦ nomatch h
        · rintro ⟨h, hne⟩
          obtain rfl := Option.some.inj h
          exact absurd htag (hne rfl)
      · rw [if_neg hk]
        simp [Ne.symm hk]
    · rw [if_neg htag]
      rw [tagsEqual_iff] at htag
      refine ⟨fun h ↦ ⟨h, ?_⟩, And.left⟩
      rintro rfl
      obtain rfl := Option.some.inj (hsource.symm.trans h)
      exact htag

end Peer

/-- The peer after `self.peer_to_event_map[peer]` is read. -/
def Peer.mapPeer (p : Peer) (peer : Uid) : Peer :=
  { p with peerToEventMap := p.peerToEventMap.insertIfNew peer emptyUid }

/-- Looking a peer's event up leaves the missing responses alone. -/
@[simp] theorem Peer.mapPeer_missingResp (p : Peer) (peer : Uid) :
    (p.mapPeer peer).missingResp = p.missingResp := rfl

/-- Looking a peer's event up gives it and stores it where it was missing. -/
theorem peerToEventMapAt_eq (peer : Uid) (s : EnclaveState) : peerToEventMapAt peer s =
    .ok (s.self.eventOf peer, { s with self := s.self.mapPeer peer }) := by
  unfold peerToEventMapAt Peer.mapPeer Peer.eventOf
  rw [getSelf_bind, Std.ExtTreeMap.getD_eq_getD_getElem?]
  cases hevent : s.self.peerToEventMap[peer]? with
  | some event =>
    have known : peer ∈ s.self.peerToEventMap := by
      rw [Std.ExtTreeMap.mem_iff_isSome_getElem?, hevent]
      rfl
    have same : s.self.peerToEventMap.insertIfNew peer emptyUid = s.self.peerToEventMap := by
      ext k
      rw [Std.ExtTreeMap.getElem?_insertIfNew, if_neg (fun h ↦ h.2 known)]
    rw [same]
    rfl
  | none =>
    have unknown : peer ∉ s.self.peerToEventMap := by
      rw [Std.ExtTreeMap.mem_iff_isSome_getElem?, hevent]
      exact Bool.false_ne_true
    have new : s.self.peerToEventMap.insertIfNew peer emptyUid =
        s.self.peerToEventMap.insert peer emptyUid := by
      ext k
      rw [Std.ExtTreeMap.getElem?_insertIfNew, Std.ExtTreeMap.getElem?_insert]
      simp only [unknown, not_false_eq_true, and_true]
    rw [new]
    rfl

/-- A redirect sends nothing. -/
theorem recvRedirect_spec (rsp : CommandRsp) (s : EnclaveState) :
    wp (recvRedirect rsp)
      (fun _ t ↦ t.sent = s.sent ∧ t.self.missingResp = s.self.redirected rsp) s := by
  unfold recvRedirect
  refine wp_bind_of_ok (peerToEventMapAt_eq rsp.source s) ?_
  rw [wp_bind, wp_modifySelf, wp_bind, wp_getSelf]
  unfold Peer.redirected
  dsimp only
  rw [Peer.mapPeer_missingResp]
  cases s.self.missingResp[rsp.source]? with
  | some req =>
    rw [wp_modifySelf]
    exact ⟨rfl, rfl⟩
  | none =>
    rw [wp_pure]
    exact ⟨rfl, rfl⟩

private theorem clearMissingResp_eq (rsp : CommandRsp) (s : EnclaveState) : clearMissingResp rsp s =
    .ok (⟨⟩, { s with self := { s.self with missingResp := s.self.cleared rsp } }) := by
  change (match s.self.missingResp[rsp.source]? with | some _ => _ | none => _ : Ecall Unit) s = _
  unfold Peer.cleared
  cases s.self.missingResp[rsp.source]? with
  | none => rfl
  | some req =>
    dsimp only
    by_cases htag : tagsEqual req.tag rsp.tag = true
    · rw [if_pos htag, if_pos htag]
      rfl
    · rw [if_neg htag, if_neg htag]
      rfl

/-- The response is for the leader and names no other leader of its cluster. -/
def Peer.Handles (p : Peer) (valid : Bool) (rsp : CommandRsp) : Prop :=
  valid = true ∧ rsp.target = p.id ∧ p.role = .leader ∧
    (rsp.success = true ∨ rsp.leader = emptyUid)

instance (p : Peer) (valid : Bool) (rsp : CommandRsp) : Decidable (p.Handles valid rsp) :=
  inferInstanceAs (Decidable (_ ∧ _))

/-- The response is for the leader and names another leader of its cluster. -/
def Peer.Redirects (p : Peer) (valid : Bool) (rsp : CommandRsp) : Prop :=
  valid = true ∧ rsp.target = p.id ∧ p.role = .leader ∧ rsp.success = false ∧
    rsp.leader ≠ emptyUid

instance (p : Peer) (valid : Bool) (rsp : CommandRsp) : Decidable (p.Redirects valid rsp) :=
  inferInstanceAs (Decidable (_ ∧ _))

/-- A response that is handled clears the request it answers, and is then handled by its type. -/
theorem recvCommandRsp_of_handles {valid : Bool} {rsp : CommandRsp} {s : EnclaveState}
    (handles : s.self.Handles valid rsp) : recvCommandRsp o valid rsp s =
      (match rsp.tag.type with
      | .abort => recvAbortRsp o rsp
      | .exec => modifySelf fun p ↦ { p with missingResp := p.missingResp.erase rsp.source }
      | .lock => recvLockRsp o rsp
      | .checkpoint => return : Ecall Unit)
        { s with self := { s.self with missingResp := s.self.cleared rsp } } := by
  obtain ⟨rfl, target, leads, granted⟩ := handles
  unfold recvCommandRsp
  rw [getSelf_bind, if_neg (by simp), if_neg (by simp [target]), if_neg (by simp [leads]),
    if_neg (by rcases granted with h | h <;> simp [h])]
  exact bind_of_ok (clearMissingResp_eq rsp s)

/-- A response that names another leader is a redirect. -/
theorem recvCommandRsp_of_redirects {valid : Bool} {rsp : CommandRsp} {s : EnclaveState}
    (redirects : s.self.Redirects valid rsp) :
    recvCommandRsp o valid rsp s = recvRedirect rsp s := by
  obtain ⟨rfl, target, leads, refused, named⟩ := redirects
  have named := (uidsEqual_eq_false _ _).mpr named
  unfold recvCommandRsp
  rw [getSelf_bind, if_neg (by simp), if_neg (by simp [target]), if_neg (by simp [leads]),
    if_pos (by simp [refused, named])]

/-- Any other response is ignored. -/
theorem recvCommandRsp_of_ignores {valid : Bool} {rsp : CommandRsp} {s : EnclaveState}
    (unhandled : ¬ s.self.Handles valid rsp) (undirected : ¬ s.self.Redirects valid rsp) :
    recvCommandRsp o valid rsp s = .ok (⟨⟩, s) := by
  unfold Peer.Handles at unhandled
  unfold Peer.Redirects at undirected
  unfold recvCommandRsp
  rw [getSelf_bind]
  by_cases hvalid : valid = true
  · rw [if_neg (by simp [hvalid])]
    by_cases target : rsp.target = s.self.id
    · rw [if_neg (by simp [target])]
      by_cases leads : s.self.role = .leader
      · cases hsuccess : rsp.success <;> simp_all
      · rw [if_pos leads]
        rfl
    · rw [if_pos (by simpa using (uidsEqual_eq_false _ _).mpr target)]
      rfl
  · rw [if_pos (by simpa using hvalid)]
    rfl

/-- The request that answers a late response to a LOCK, as it is sent.
`src/enclave/enclave.cpp:633–642`. -/
def Peer.resolveRequest (p : Peer) (o : Oracle) (rsp : CommandRsp) : CommandReq :=
  ⟨rsp.source, p.id, o.junkResolve.tag, o.junkResolve.event⟩

section
variable {rsp : CommandRsp} {s : EnclaveState} {i : Nat}

/-- The LOCK case when the scan for an entry that is no LOCK succeeds. -/
theorem recvLockRsp_of_resolved (found : s.self.existInLog rsp.tag = some i)
    (resolved : s.self.lockIsResolved i = .ok true) :
    recvLockRsp o rsp s = answerResolved o rsp i s := by
  unfold recvLockRsp
  rw [getSelf_bind, found]
  exact bind_lift_of_ok resolved

/-- The answer when the scan for any entry succeeds. -/
theorem answerResolved_eq (committed : s.self.lockResolveIsCommitted i = .ok true) :
    answerResolved o rsp i s = .ok (⟨⟩, { s with
      self := { s.self with
        missingResp := s.self.missingResp.insert rsp.source (s.self.resolveRequest o rsp) }
      sent := s.sent ++ [.commandReq (s.self.resolveRequest o rsp)] }) := by
  unfold answerResolved
  rw [getSelf_bind]
  exact bind_lift_of_ok committed

end

end TrustedDcr.Enclave
