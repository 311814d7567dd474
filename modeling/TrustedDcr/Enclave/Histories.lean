import TrustedDcr.Enclave.Aborts
import TrustedDcr.Enclave.Walk

/-!
# What calls say about logs

`recv_log_req` alone answers with a log, and `recv_log_rsp` alone hands one over to
the host. Every other call is quiet about them.
-/

namespace TrustedDcr.Enclave
open TrustedDcr.Msg TrustedDcr.Dcr TrustedDcr.Theory

/-- No history is handed over, and none of the messages is a response with a log. -/
def Quiet (s t : EnclaveState) : Prop :=
  t.returned = s.returned ∧ ∃ ms, t.sent = s.sent ++ ms ∧ ∀ rsp, .logRsp rsp ∉ ms

namespace Quiet

variable {s t u : EnclaveState}

/-- A change of the peer and the identifiers drawn. -/
theorem of_eq (returned : t.returned = s.returned) (sent : t.sent = s.sent) : Quiet s t :=
  ⟨returned, [], by rw [sent, List.append_nil], fun _ h ↦ nomatch h⟩

/-- Two quiet calls are quiet in a row. -/
protected theorem trans (st : Quiet s t) (tu : Quiet t u) : Quiet s u := by
  obtain ⟨hst, ms, hms, quiet⟩ := st
  obtain ⟨htu, ns, hns, quiet'⟩ := tu
  refine ⟨htu.trans hst, ms ++ ns, by rw [hns, hms, List.append_assoc], fun rsp h ↦ ?_⟩
  exact (List.mem_append.mp h).elim (quiet rsp) (quiet' rsp)

instance : Std.Refl Quiet := ⟨fun _ ↦ of_eq rfl rfl⟩
instance : IsTrans EnclaveState Quiet := ⟨fun _ _ _ ↦ Quiet.trans⟩

end Quiet

/-! ### The quiet calls -/

section
variable {o : Oracle}

private theorem quiet_modifySelf (f : Peer → Peer) : Along Quiet (modifySelf f) :=
  fun _ ↦ wp_modifySelf.mpr (.of_eq rfl rfl)

private theorem quiet_macAndSendMsg {msg : Message} (h : ∀ rsp, .logRsp rsp ≠ msg) :
    Along Quiet (macAndSendMsg msg) := fun _ ↦ wp_macAndSendMsg.mpr
  ⟨rfl, [msg], rfl, fun rsp hm ↦ h rsp (List.mem_singleton.mp hm)⟩

/-- Being quiet passes from the steps to the whole, whatever is assigned. -/
theorem walk_quiet : Walk (fun _ ↦ True) fun _ x ↦ Along Quiet x := by
  apply walk_along
  case assign => exact fun _ _ ↦ quiet_modifySelf _
  case updateTimeout => exact fun _ ↦ quiet_modifySelf _
  case draw => exact fun _ _ ↦ .of_eq rfl rfl
  case broadcast =>
    intro msgs ordinary s
    refine wp_macAndBroadcastMsgs.mpr ⟨rfl, msgs, rfl, fun rsp hm ↦ ?_⟩
    have plain := ordinary _ hm
    simp [Message.ordinary] at plain

/-- A poll is answered without a word on the history. -/
theorem quiet_recvPollReq (valid : Bool) (req : PollReq) : Along Quiet (recvPollReq valid req) := by
  refine (walk_quiet.clerical.verifyMacAndOwnTerm _ _ _ _).bind fun verified ↦
    Along.ite ?_ (Along.pure _)
  exact along_getSelf.bind fun self ↦ (walk_quiet.verifyMsgTerm _ rfl).bind fun _ ↦
    Along.ite ((Along.lift _).bind fun _ ↦ quiet_macAndSendMsg (by simp)) (Along.pure _)

/-- No timeout asks for or hands over a history. -/
theorem quiet_setTime (ticks : UInt64) : Along Quiet (setTime o ticks) :=
  along_getSelf.bind fun _ ↦ (quiet_modifySelf _).bind fun _ ↦ along_getSelf.bind fun _ ↦
    Along.ite walk_quiet.timeout (Along.pure _)

/-! ### The two calls that matter -/

/-- The peer leads and these are its committed entries. -/
def Peer.Reports (p : Peer) (entries : List Entry) : Prop :=
  p.role = .leader ∧ p.commitIndex < p.log.length ∧ entries = p.log.take (p.commitIndex + 1)

/-- The entries read at the first positions are the beginning of the log. -/
theorem eq_take_of_reads {log entries : List Entry} {n : Nat}
    (reads : List.Forall₂ (fun i e ↦ log[i]? = some e) (List.range n) entries) :
    n ≤ log.length ∧ entries = log.take n := by
  obtain ⟨length, reads⟩ := List.forall₂_iff_get.mp reads
  rw [List.length_range] at length
  have read (i : Nat) (h : i < n) : log[i]? = some entries[i] := by
    have := reads i (by simpa using h) (by omega)
    simpa using this
  have inside : n ≤ log.length := by
    by_contra short
    have := (List.getElem?_eq_some_iff.mp (read (n - 1) (by omega))).1
    omega
  refine ⟨inside, ?_⟩
  apply List.ext_getElem
  · rw [← length, List.length_take_of_le inside]
  · intro i h _
    rw [List.getElem_take]
    exact (List.getElem?_eq_some_iff.mp (read i (by omega))).2.symm

/-- A request for the log is answered in the own name, with the committed entries of a leader. -/
theorem recvLogReq_spec (valid : Bool) (req : LogReq) (s : EnclaveState) :
    wp (recvLogReq valid req) (fun _ t ↦ t.returned = s.returned ∧ ∃ ms, t.sent = s.sent ++ ms ∧
      ∀ rsp, .logRsp rsp ∈ ms → rsp.success = true →
        rsp.source = s.self.id ∧ s.self.Reports rsp.entries) s := by
  have nothing : s.returned = s.returned ∧ ∃ ms, s.sent = s.sent ++ ms ∧
      ∀ rsp, .logRsp rsp ∈ ms → rsp.success = true →
        rsp.source = s.self.id ∧ s.self.Reports rsp.entries :=
    ⟨rfl, [], by rw [List.append_nil], fun _ h ↦ nomatch h⟩
  unfold recvLogReq
  rw [wp_bind, wp_getSelf, wp_ite]
  refine ⟨fun _ ↦ wp_pure.mpr nothing, fun _ ↦ wp_ite.mpr ⟨fun _ ↦ wp_pure.mpr nothing, fun _ ↦ ?_⟩⟩
  rw [wp_ite]
  constructor
  · intro leads
    rw [wp_bind]
    refine wp_mono (wp_mapM_forall₂ (R := Eq) (P := fun i e ↦ s.self.log[i]? = some e)
      (fun i _ u ↦ ?_) s) ?_
    · rw [wp_lift]
      exact fun e he ↦ ⟨rfl, entryAt_ok he⟩
    · rintro entries _ ⟨rfl, reads⟩
      obtain ⟨inside, rfl⟩ := eq_take_of_reads reads
      refine wp_macAndSendMsg.mpr ⟨rfl, _, rfl, fun rsp h _ ↦ ?_⟩
      obtain rfl := Message.logRsp.inj (List.mem_singleton.mp h)
      exact ⟨rfl, leads, inside, rfl⟩
  · intro _
    refine wp_macAndSendMsg.mpr ⟨rfl, _, rfl, fun rsp h granted ↦ ?_⟩
    obtain rfl := Message.logRsp.inj (List.mem_singleton.mp h)
    exact nomatch granted

/-- What a response with a log hands over to the host. -/
def Peer.handsOver (p : Peer) (rsp : LogRsp) : List (Uid × List Entry) :=
  if rsp.success then [(p.eventOf rsp.source, rsp.entries)] else []

/-- A history response hands over its own entries and is answered by none. -/
theorem recvLogRsp_spec (rsp : LogRsp) (s : EnclaveState) :
    wp (recvLogRsp true rsp) (fun _ t ↦ t.returned = s.returned ++ s.self.handsOver rsp ∧
      ∃ ms, t.sent = s.sent ++ ms ∧ ∀ log, .logRsp log ∉ ms) s := by
  unfold recvLogRsp Peer.handsOver
  rw [if_pos rfl]
  refine wp_bind_of_ok (peerToEventMapAt_eq rsp.source s) ?_
  cases rsp.success with
  | false =>
    rw [if_pos (by simp), wp_bind, wp_modifySelf, wp_bind, wp_getSelf, wp_macAndSendMsg]
    exact ⟨(List.append_nil _).symm, _, rfl, by simp⟩
  | true =>
    rw [if_neg (by simp), wp_modify]
    exact ⟨rfl, [], (List.append_nil _).symm, by simp⟩

end

end TrustedDcr.Enclave
