import TrustedDcr.Enclave.Filing
import TrustedDcr.System.Alone

/-!
# Responses and outstanding commands

A leader files one outstanding request for each peer. Over a run, which responses take
another request than their own off the map, and which leave the answered one on it.
-/

namespace TrustedDcr.Enclave
open TrustedDcr.Msg TrustedDcr.Dcr TrustedDcr.Theory

variable {o : Oracle} {p q : Peer} {rsp : CommandRsp}

/-- `missing_resp` after a response that the leader handles. -/
def Peer.answered (p : Peer) (o : Oracle) (rsp : CommandRsp) : UidMap CommandReq :=
  if rsp.tag.type = .exec then (p.cleared rsp).erase rsp.source
  else fileAll (p.files o rsp) (p.cleared rsp)

/-- What is outstanding after an answer: what the handling filed, and what it neither answered nor
filed over. -/
theorem Peer.getElem?_answered (k : Uid) (req : CommandReq) :
    (p.answered o rsp)[k]? = some req ↔ (req ∈ p.files o rsp ∧ req.target = k) ∨
      (∀ filed ∈ p.files o rsp, filed.target ≠ k) ∧ p.missingResp[k]? = some req ∧
        (k = rsp.source → req.tag ≠ rsp.tag ∧ rsp.tag.type ≠ .exec) := by
  unfold answered
  split
  · next exec =>
    have none : p.files o rsp = [] := by
      unfold files
      rw [exec]
    rw [getElem?_erase_uid, none]
    by_cases hk : rsp.source = k
    · rw [if_pos hk]
      simp [hk, exec]
    · rw [if_neg hk, getElem?_cleared]
      simp [Ne.symm hk]
  · next other =>
    rw [getElem?_fileAll (p.distinct_files rsp), getElem?_cleared]
    simp [other]

/-- A response takes no request off the map but the one it answers, and a redirect moves the request
of its source. -/
def Peer.Keeps (p : Peer) (rsp : CommandRsp) (q : Peer) : Prop :=
  ∀ (k : Uid) req, p.missingResp[k]? = some req →
    q.missingResp[k]? = some req ∨ req.tag = rsp.tag ∨
      p.Redirects true rsp ∧ k = rsp.source ∧ q.missingResp[rsp.leader]? = some req

/-- A response handled is not redirected. -/
theorem Peer.Handles.not_redirects {valid : Bool} (h : p.Handles valid rsp) :
    ¬p.Redirects valid rsp := by
  rintro ⟨-, -, -, refused, named⟩
  obtain ⟨-, -, -, granted | unnamed⟩ := h
  · simp [refused] at granted
  · exact named unnamed

/-- The LOCK is not counted when it is answered as resolved. -/
theorem Peer.completesLocks_of_answersResolved (answers : p.answersResolved rsp = true) :
    p.completesLocks rsp = false := by
  rw [Bool.eq_false_iff]
  intro complete
  rw [answersResolved_of_countsLock (Bool.and_eq_true_iff.mp complete).1] at answers
  exact nomatch answers

/-- Where a response removes a request, moves one or files one, no other is outstanding than the
same or the answered one. -/
structure Peer.Spares (p : Peer) (o : Oracle) (rsp : CommandRsp) : Prop where
  redirect : p.Redirects true rsp → rsp.source ∈ p.missingResp → rsp.leader ≠ rsp.source →
    ∀ req, p.missingResp[rsp.leader]? = some req →
      p.missingResp[rsp.source]? = some req ∨ req.tag = rsp.tag
  exec : p.Handles true rsp → rsp.tag.type = .exec →
    ∀ req, p.missingResp[rsp.source]? = some req → req.tag = rsp.tag
  resolved : p.Handles true rsp → rsp.tag.type = .lock → p.answersResolved rsp = true →
    ∀ req, p.missingResp[rsp.source]? = some req →
      req = p.resolveRequest o rsp ∨ req.tag = rsp.tag
  informed : p.Handles true rsp → rsp.tag.type = .lock → p.completesLocks rsp = true →
    ∀ exec ∈ (p.mapPeer rsp.source).commandsTo o ⟨rsp.tag.uid, .exec⟩
      (p.workflow.getInformSet p.clusterEvent).toList,
    ∀ req, p.missingResp[exec.target]? = some req → req = exec ∨ req.tag = rsp.tag
  aborted : p.Handles true rsp → rsp.tag.type = .abort → p.startsAbort rsp.source = true →
    ∀ abort ∈ { p with missingResp := p.cleared rsp }.aborts o.junkEntry.tag.uid
      (p.workflow.getLockSet p.clusterEvent).toList,
    ∀ req, p.missingResp[abort.target]? = some req → req = abort ∨ req.tag = rsp.tag

/-- The last three conditions are one about the requests that are filed. -/
theorem Peer.Spares.iff_files (handles : p.Handles true rsp) : p.Spares o rsp ↔
    (rsp.tag.type = .exec → ∀ req, p.missingResp[rsp.source]? = some req → req.tag = rsp.tag) ∧
      ∀ filed ∈ p.files o rsp, ∀ req, p.missingResp[filed.target]? = some req →
        req = filed ∨ req.tag = rsp.tag := by
  have undirected := handles.not_redirects
  unfold files
  constructor
  · intro spares
    refine ⟨spares.exec handles, ?_⟩
    split
    · next type =>
      split
      · next starts => exact spares.aborted handles type starts
      · exact fun _ h ↦ nomatch h
    · next type =>
      split
      · next complete => exact spares.informed handles type complete
      · split
        · next answers =>
          intro filed hfiled
          obtain rfl := List.mem_singleton.mp hfiled
          exact spares.resolved handles type answers
        · exact fun _ h ↦ nomatch h
    · exact fun _ h ↦ nomatch h
    · exact fun _ h ↦ nomatch h
  · rintro ⟨exec, hfiles⟩
    refine ⟨fun h ↦ absurd h undirected, fun _ ↦ exec, fun _ type answers ↦ ?_,
      fun _ type complete ↦ ?_, fun _ type starts ↦ ?_⟩
    · rw [type] at hfiles
      dsimp only at hfiles
      rw [completesLocks_of_answersResolved answers, if_neg Bool.false_ne_true,
        if_pos answers] at hfiles
      exact hfiles _ List.mem_cons_self
    · rw [type] at hfiles
      dsimp only at hfiles
      rw [if_pos complete] at hfiles
      exact hfiles
    · rw [type] at hfiles
      dsimp only at hfiles
      rw [if_pos starts] at hfiles
      exact hfiles

/-- A handled response keeps the others exactly when it spares them. -/
theorem Peer.keeps_iff_of_handles (handles : p.Handles true rsp)
    (after : q.missingResp = p.answered o rsp) : p.Keeps rsp q ↔ p.Spares o rsp := by
  rw [Spares.iff_files handles]
  unfold Peer.Keeps
  simp only [after, getElem?_answered, handles.not_redirects, false_and, or_false]
  constructor
  · intro keeps
    constructor
    · intro exec req hreq
      obtain (⟨hmem, -⟩ | ⟨-, -, hne⟩) | htag := keeps _ req hreq
      · unfold Peer.files at hmem
        rw [exec] at hmem
        exact nomatch hmem
      · exact absurd exec (hne rfl).2
      · exact htag
    · intro filed hfiled req hreq
      obtain (⟨hmem, ht⟩ | ⟨hne, -⟩) | htag := keeps _ req hreq
      · exact Or.inl (p.distinct_files rsp req hmem filed hfiled ht)
      · exact absurd rfl (hne filed hfiled)
      · exact Or.inr htag
  · rintro ⟨hexec, hfiles⟩ k req hreq
    by_cases htag : req.tag = rsp.tag
    · exact Or.inr htag
    · left
      by_cases hfiled : ∃ filed ∈ p.files o rsp, filed.target = k
      · obtain ⟨filed, hmem, rfl⟩ := hfiled
        obtain rfl := (hfiles filed hmem req hreq).resolve_right htag
        exact Or.inl ⟨hmem, rfl⟩
      · refine Or.inr ⟨fun filed hmem ht ↦ hfiled ⟨filed, hmem, ht⟩, hreq, ?_⟩
        rintro rfl
        exact ⟨htag, fun exec ↦ htag (hexec exec req hreq)⟩

/-- So does a redirect. -/
theorem Peer.keeps_iff_of_redirects (redirects : p.Redirects true rsp)
    (after : q.missingResp = p.redirected rsp) : p.Keeps rsp q ↔ p.Spares o rsp := by
  have unhandled : ¬p.Handles true rsp := fun h ↦ h.not_redirects redirects
  unfold Peer.Keeps
  simp only [after, getElem?_redirected, redirects, true_and]
  constructor
  · intro keeps
    refine ⟨fun _ waits moves req hreq ↦ ?_, fun h ↦ absurd h unhandled,
      fun h ↦ absurd h unhandled, fun h ↦ absurd h unhandled, fun h ↦ absurd h unhandled⟩
    obtain h | h | ⟨h, -⟩ := keeps rsp.leader req hreq
    · rw [if_pos ⟨rfl, waits⟩] at h
      exact Or.inl h
    · exact Or.inr h
    · exact absurd h moves
  · intro spares k req hreq
    by_cases hk : rsp.source = k
    · subst hk
      have waits : rsp.source ∈ p.missingResp := by
        rw [Std.ExtTreeMap.mem_iff_isSome_getElem?, hreq]
        rfl
      refine Or.inr (Or.inr ⟨rfl, ?_⟩)
      rw [if_pos waits]
      exact hreq
    · by_cases moved : rsp.leader = k ∧ rsp.source ∈ p.missingResp
      · obtain ⟨rfl, waits⟩ := moved
        rw [if_pos ⟨rfl, waits⟩]
        exact (spares.redirect redirects waits (Ne.symm hk) req hreq).imp_right Or.inl
      · rw [if_neg moved, if_neg hk]
        exact Or.inl hreq

/-- A response that is neither handled nor a redirect leaves the peer alone. -/
theorem Peer.spares_of_ignores (unhandled : ¬p.Handles true rsp)
    (undirected : ¬p.Redirects true rsp) : p.Spares o rsp :=
  ⟨fun h ↦ absurd h undirected, fun h ↦ absurd h unhandled, fun h ↦ absurd h unhandled,
    fun h ↦ absurd h unhandled, fun h ↦ absurd h unhandled⟩

/-- What a response does to the outstanding requests of a peer. -/
theorem recvCommandRsp_outstanding (p : Peer) (rsp : CommandRsp)
    (settled : p.clusterSize = 1 → p.log.length = p.commitIndex + 1) :
    wp (recvCommandRsp o true rsp) (fun _ t ↦
      p.Handles true rsp ∧ t.self.missingResp = p.answered o rsp ∨
      p.Redirects true rsp ∧ t.self.missingResp = p.redirected rsp ∨
      (¬p.Handles true rsp ∧ ¬p.Redirects true rsp) ∧ t.self.missingResp = p.missingResp)
      ⟨p, [], [], []⟩ := by
  intro _ t ht
  by_cases handles : p.Handles true rsp
  · exact Or.inl ⟨handles, recvCommandRsp_missing (s := ⟨p, [], [], []⟩) handles settled _ t ht⟩
  · by_cases redirects : p.Redirects true rsp
    · rw [recvCommandRsp_of_redirects (s := ⟨p, [], [], []⟩) redirects] at ht
      exact Or.inr (Or.inl ⟨redirects, (recvRedirect_spec rsp _ _ t ht).2⟩)
    · rw [recvCommandRsp_of_ignores (s := ⟨p, [], [], []⟩) handles redirects] at ht
      obtain ⟨⟩ := ht
      exact Or.inr (Or.inr ⟨⟨handles, redirects⟩, rfl⟩)

end TrustedDcr.Enclave

namespace TrustedDcr.System
open TrustedDcr.Msg TrustedDcr.Dcr TrustedDcr.Enclave TrustedDcr.Theory

/-- A response takes no request off its receiver's map but the one it answers. -/
def KeepsOutstanding (s : World) (a : Action) (t : World) : Prop :=
  match a.call with
  | .recv (.commandRsp rsp) => (s.peers a.peer).Keeps rsp (t.peers a.peer)
  | _ => True

/-- A response spares the requests that it does not answer. -/
def SparesOutstanding (s : World) (a : Action) : Prop :=
  match a.call with
  | .recv (.commandRsp rsp) => (s.peers a.peer).Spares a.oracle rsp
  | _ => True

section
variable {cfg : Config} {C : Hist → World → Action → Prop} {h : Hist} {s t : World} {a : Action}

/-- The requests outstanding after a response of the run. -/
theorem Run.outstanding (run : Run cfg C h s) (next : s.step cfg a = some t) {rsp : CommandRsp}
    (received : a.call = .recv (.commandRsp rsp)) :
    (s.peers a.peer).Handles true rsp ∧
        (t.peers a.peer).missingResp = (s.peers a.peer).answered a.oracle rsp ∨
      (s.peers a.peer).Redirects true rsp ∧
        (t.peers a.peer).missingResp = (s.peers a.peer).redirected rsp ∨
      (¬(s.peers a.peer).Handles true rsp ∧ ¬(s.peers a.peer).Redirects true rsp) ∧
        (t.peers a.peer).missingResp = (s.peers a.peer).missingResp := by
  obtain ⟨-, e, he, hpeers, -⟩ := World.step_of_wp (a := a) next (by
    rw [received]
    exact recvCommandRsp_outstanding (s.peers a.peer) rsp fun alone ↦ (run.settled alone).2)
  rw [hpeers, Function.update_self]
  exact he

private theorem keepsOutstanding_iff (run : Run cfg C h s) (next : s.step cfg a = some t) :
    KeepsOutstanding s a t ↔ SparesOutstanding s a := by
  unfold KeepsOutstanding SparesOutstanding
  split
  · next rsp received =>
    obtain ⟨handles, after⟩ | ⟨redirects, after⟩ | ⟨⟨unhandled, undirected⟩, after⟩ :=
      run.outstanding next received
    · exact Peer.keeps_iff_of_handles handles after
    · exact Peer.keeps_iff_of_redirects redirects after
    · refine iff_of_true (fun k req hreq ↦ Or.inl (after ▸ hreq)) ?_
      exact Peer.spares_of_ignores unhandled undirected
  · exact Iff.rfl

end

/-- Over every run, no response takes another request off the map of its receiver than the one it
answers, or moves any but the one of its source, exactly when every response spares them.
`src/enclave/enclave.cpp:585–668`. -/
theorem outstanding_kept_iff {cfg : Config} {h : Hist} {s : World} (run : Run cfg anyStep h s) :
    EveryStep KeepsOutstanding h s ↔ ∀ step ∈ h, SparesOutstanding step.1 step.2 :=
  run.everyStep_iff fun _ _ _ _ run next ↦ keepsOutstanding_iff run next

set_option synthInstance.maxSize 400 in
instance (p : Peer) (o : Oracle) (rsp : CommandRsp) : Decidable (p.Spares o rsp) :=
  decidable_of_iff (_ ∧ _ ∧ _ ∧ _ ∧ _)
    ⟨fun ⟨h₁, h₂, h₃, h₄, h₅⟩ ↦ ⟨h₁, h₂, h₃, h₄, h₅⟩,
      fun h ↦ ⟨h.redirect, h.exec, h.resolved, h.informed, h.aborted⟩⟩

instance (s : World) (a : Action) : Decidable (SparesOutstanding s a) := by
  unfold SparesOutstanding
  induction a.call using Call.casesOn with
  | recv m => induction m using Message.casesOn <;> infer_instance
  | _ => infer_instance

/-- In an attempt whose responses arrive in time none is dropped. -/
theorem rivals_outstanding_kept : ∃ h s, Run rivals anyStep h s ∧ EveryStep KeepsOutstanding h s ∧
    (s.peers ⟨0, 11⟩).missingResp.toList = [] ∧ (s.peers ⟨0, 11⟩).commitIndex = 2 := by
  obtain ⟨h, s, run, spares, none, commit⟩ := exists_run_of_replay rivals anyStep
    [.start ⟨0, 11⟩ ⟨0, 1⟩ ⟨0, 101⟩, .deliver ⟨0, 11⟩ 0, .deliver ⟨0, 21⟩ 1, .deliver ⟨0, 11⟩ 2,
      .deliver ⟨0, 21⟩ 3, .deliver ⟨0, 11⟩ 5]
    (fun h s ↦ (∀ step ∈ h, SparesOutstanding step.1 step.2) ∧
      (s.peers ⟨0, 11⟩).missingResp.toList = [] ∧ (s.peers ⟨0, 11⟩).commitIndex = 2)
    (by decide +kernel)
  exact ⟨h, s, run, (outstanding_kept_iff run).mpr spares, none, commit⟩

/-- The EXEC response of one attempt, delivered once more in the next, takes its LOCK request off. -/
theorem not_outstanding_kept : ¬ ∀ (cfg : Config) (h : Hist) (s : World),
    Run cfg anyStep h s → EveryStep KeepsOutstanding h s := by
  intro claim
  obtain ⟨h, s, a, t, run, meets, next, peer, received, waits, dropped⟩ :=
    exists_step_of_replay rivals anyStep
      [.start ⟨0, 11⟩ ⟨0, 1⟩ ⟨0, 101⟩, .deliver ⟨0, 11⟩ 0, .deliver ⟨0, 21⟩ 1, .deliver ⟨0, 11⟩ 2,
        .deliver ⟨0, 21⟩ 3, .deliver ⟨0, 11⟩ 5, .start ⟨0, 11⟩ ⟨0, 1⟩ ⟨0, 102⟩, .deliver ⟨0, 11⟩ 6]
      (.deliver ⟨0, 11⟩ 5)
      (fun _ s a t ↦ a.peer = ⟨0, 11⟩ ∧ a.call = .recv (.commandRsp
          ⟨⟨0, 11⟩, ⟨0, 21⟩, ⟨⟨0, 101⟩, .exec⟩, true, emptyUid⟩) ∧
        (s.peers ⟨0, 11⟩).missingResp[(⟨0, 21⟩ : Uid)]? =
          some ⟨⟨0, 21⟩, ⟨0, 11⟩, ⟨⟨0, 102⟩, .lock⟩, ⟨0, 1⟩⟩ ∧
        (t.peers ⟨0, 11⟩).missingResp[(⟨0, 21⟩ : Uid)]? = none)
      (by decide +kernel)
  have keeps := (claim rivals _ t (run.step meets next)).2
  unfold KeepsOutstanding at keeps
  rw [received, peer] at keeps
  obtain h | h | ⟨⟨-, -, -, refused, -⟩, -⟩ := keeps _ _ waits
  · exact nomatch dropped.symm.trans h
  · exact absurd h (by decide)
  · exact nomatch refused

/-! ### Answered commands -/

/-- After a granting response that is handled, nothing with its tag is outstanding from a peer of its
source's cluster. -/
def ClearsAnswered (cfg : Config) (s : World) (a : Action) (t : World) : Prop :=
  match a.call with
  | .recv (.commandRsp rsp) => (s.peers a.peer).Handles true rsp → rsp.success = true →
      rsp.source ∈ cfg.peerToEventMap → ∀ k ∈ cfg.members (cfg.clusterOf rsp.source), ∀ req,
        (t.peers a.peer).missingResp[k]? = some req → req.tag ≠ rsp.tag
  | _ => True

/-- In the cluster that answers, the command is outstanding from the answering peer at most, save
where the handling files another; and what it files there is another command. -/
def AnsweredWhereFiled (cfg : Config) (s : World) (a : Action) : Prop :=
  match a.call with
  | .recv (.commandRsp rsp) => (s.peers a.peer).Handles true rsp → rsp.success = true →
      rsp.source ∈ cfg.peerToEventMap → ∀ k ∈ cfg.members (cfg.clusterOf rsp.source),
        (k ≠ rsp.source → (∀ filed ∈ (s.peers a.peer).files a.oracle rsp, filed.target ≠ k) →
          ∀ req, (s.peers a.peer).missingResp[k]? = some req → req.tag ≠ rsp.tag) ∧
        ∀ filed ∈ (s.peers a.peer).files a.oracle rsp, filed.target = k → filed.tag ≠ rsp.tag
  | _ => True

private theorem clearsAnswered_iff {cfg : Config} {C : Hist → World → Action → Prop} {h : Hist}
    {s t : World} {a : Action} (run : Run cfg C h s) (next : s.step cfg a = some t) :
    ClearsAnswered cfg s a t ↔ AnsweredWhereFiled cfg s a := by
  unfold ClearsAnswered AnsweredWhereFiled
  split
  · next rsp received =>
    refine imp_congr_right fun handles ↦ imp_congr_right fun _ ↦ imp_congr_right fun _ ↦
      forall_congr' fun k ↦ imp_congr_right fun _ ↦ ?_
    have after : (t.peers a.peer).missingResp = (s.peers a.peer).answered a.oracle rsp := by
      obtain ⟨-, after⟩ | ⟨redirects, -⟩ | ⟨⟨unhandled, -⟩, -⟩ := run.outstanding next received
      · exact after
      · exact absurd redirects handles.not_redirects
      · exact absurd handles unhandled
    rw [after]
    constructor
    · intro clears
      constructor
      · intro hk unfiled req hreq
        refine clears req ((Peer.getElem?_answered k req).mpr (Or.inr ⟨unfiled, hreq, ?_⟩))
        exact fun h ↦ absurd h hk
      · intro filed hfiled ht
        exact clears filed ((Peer.getElem?_answered k filed).mpr (Or.inl ⟨hfiled, ht⟩))
    · rintro ⟨elsewhere, files⟩ req hreq
      obtain ⟨hfiled, ht⟩ | ⟨unfiled, hreq, answered⟩ := (Peer.getElem?_answered k req).mp hreq
      · exact files req hfiled ht
      · rcases eq_or_ne k rsp.source with hk | hk
        · exact (answered hk).1
        · exact elsewhere hk unfiled req hreq
  · exact Iff.rfl

instance (cfg : Config) (s : World) (a : Action) : Decidable (AnsweredWhereFiled cfg s a) := by
  unfold AnsweredWhereFiled
  induction a.call using Call.casesOn with
  | recv m => induction m using Message.casesOn <;> infer_instance
  | _ => infer_instance

/-- Over every run, a command that was answered with success is outstanding from no peer of the
answering cluster, exactly when every such answer comes from the peer it is filed under.
`src/enclave/enclave.cpp:202–222,585–603`. -/
theorem answered_cleared_iff {cfg : Config} {h : Hist} {s : World} (run : Run cfg anyStep h s) :
    EveryStep (ClearsAnswered cfg) h s ↔ ∀ step ∈ h, AnsweredWhereFiled cfg step.1 step.2 :=
  run.everyStep_iff fun _ _ _ _ run next ↦ clearsAnswered_iff run next

/-- In an attempt whose requests are answered by the peers they are filed under, each is cleared. -/
theorem rivals_answered_cleared : ∃ h s, Run rivals anyStep h s ∧
    EveryStep (ClearsAnswered rivals) h s ∧ (s.peers ⟨0, 11⟩).commitIndex = 2 := by
  obtain ⟨h, s, run, filed, commit⟩ := exists_run_of_replay rivals anyStep
    [.start ⟨0, 11⟩ ⟨0, 1⟩ ⟨0, 101⟩, .deliver ⟨0, 11⟩ 0, .deliver ⟨0, 21⟩ 1, .deliver ⟨0, 11⟩ 2,
      .deliver ⟨0, 21⟩ 3, .deliver ⟨0, 11⟩ 5]
    (fun h s ↦ (∀ step ∈ h, AnsweredWhereFiled rivals step.1 step.2) ∧
      (s.peers ⟨0, 11⟩).commitIndex = 2)
    (by decide +kernel)
  exact ⟨h, s, run, (answered_cleared_iff run).mpr filed, commit⟩

/-- An event to which two others respond, the first of which has two peers. -/
def forked : Config where
  workflow := { unrelated [⟨0, 1⟩, ⟨0, 2⟩, ⟨0, 3⟩] with
    dcrResponsesOut := [⟨0, 1⟩, ⟨0, 1⟩], dcrResponsesIn := [⟨0, 2⟩, ⟨0, 3⟩] }
  peerMap := [(⟨0, 11⟩, ⟨0, 1⟩), (⟨0, 21⟩, ⟨0, 2⟩), (⟨0, 22⟩, ⟨0, 2⟩), (⟨0, 31⟩, ⟨0, 3⟩)]

/-- A LOCK request is retried with the second peer of a cluster, which leads it and grants the lock;
the request stays outstanding from the first. -/
theorem not_answered_cleared : ¬ ∀ (cfg : Config) (h : Hist) (s : World),
    Run cfg anyStep h s → EveryStep (ClearsAnswered cfg) h s := by
  intro claim
  obtain ⟨h, s, a, t, run, meets, next, peer, received, leads, mapped, member, waits⟩ :=
    exists_step_of_replay forked anyStep
      [.tick ⟨0, 21⟩ 1 emptyUid, .tick ⟨0, 22⟩ 1 emptyUid, .tick ⟨0, 22⟩ 10000 emptyUid,
        .deliver ⟨0, 21⟩ 0, .deliver ⟨0, 22⟩ 1, .deliver ⟨0, 21⟩ 2, .deliver ⟨0, 22⟩ 3,
        .start ⟨0, 11⟩ ⟨0, 1⟩ ⟨0, 101⟩, .deliver ⟨0, 11⟩ 5, .tick ⟨0, 11⟩ 1 emptyUid,
        .tick ⟨0, 11⟩ 10000 emptyUid, .tick ⟨0, 11⟩ 20000 emptyUid, .deliver ⟨0, 22⟩ 10,
        .deliver ⟨0, 21⟩ 12, .deliver ⟨0, 22⟩ 13]
      (.deliver ⟨0, 11⟩ 14)
      (fun _ s a t ↦ a.peer = ⟨0, 11⟩ ∧ a.call = .recv (.commandRsp
          ⟨⟨0, 11⟩, ⟨0, 22⟩, ⟨⟨0, 101⟩, .lock⟩, true, emptyUid⟩) ∧
        (s.peers ⟨0, 11⟩).Handles true
          ⟨⟨0, 11⟩, ⟨0, 22⟩, ⟨⟨0, 101⟩, .lock⟩, true, emptyUid⟩ ∧
        (⟨0, 22⟩ : Uid) ∈ forked.peerToEventMap ∧
        ⟨0, 21⟩ ∈ forked.members (forked.clusterOf ⟨0, 22⟩) ∧
        (t.peers ⟨0, 11⟩).missingResp[(⟨0, 21⟩ : Uid)]? =
          some ⟨⟨0, 21⟩, ⟨0, 11⟩, ⟨⟨0, 101⟩, .lock⟩, ⟨0, 1⟩⟩)
      (by decide +kernel)
  have clears := (claim forked _ t (run.step meets next)).2
  unfold ClearsAnswered at clears
  rw [received, peer] at clears
  exact clears leads rfl mapped _ member _ waits rfl

end TrustedDcr.System
