import TrustedDcr.Msg.Authentic
import TrustedDcr.System.Alone
import TrustedDcr.System.Foreign

/-!
# Hosts that need not be honest

A host may hand any message under any code to the enclaves. As long as it knows the
codes only that the enclaves computed, no two of the strings hashed share a code, and
no poll passes for an election, what it reaches is what the network of the runs can
reach, which delivers messages as they were sent.
-/

namespace TrustedDcr.System
open TrustedDcr.Msg TrustedDcr.Dcr TrustedDcr.Enclave TrustedDcr.Theory

/-- A call a host can make. `unset` is what the validation of the message finds uninitialised. -/
inductive HostCall where
  | setTime (ticks : UInt64)
  | recv (msg : Message) (mac : CmacTag) (unset : Unset)
  | execute (event : Uid)
  | getHistory

/-- One such call at one enclave. -/
structure HostAction where
  peer : Uid
  call : HostCall
  oracle : Oracle

section
variable (cmac : List UInt8 → CmacTag) (cfg : Config)

/-- What the call runs inside the enclave. `src/enclave/enclave.edl`. -/
def HostCall.body (o : Oracle) : HostCall → Ecall Unit
  | .setTime ticks => Enclave.setTime o ticks
  | .recv msg mac unset => receive o (msg.validate cmac unset mac) msg
  | .execute event => Enclave.execute o event
  | .getHistory => Enclave.getHistory

/-- The result of the call, if it has one. -/
def World.hostStep (s : World) (a : HostAction) : Option World :=
  if a.peer ∈ cfg.peerToEventMap then
    match a.call.body cmac a.oracle (s.enclave a.peer) with
    | .ok (_, e) => some
        { peers := Function.update s.peers a.peer e.self
          net := s.net ++ e.sent
          uids := s.uids ++ e.drawn }
    | .error _ => none
  else none

/-- No two of the strings hashed for the message and for those sent share a code, and no code is
the identifier of a peer or of the target of what was sent. -/
structure Sealed (s : World) (msg : Message) : Prop where
  fits : ∀ m ∈ msg :: s.net, m.Fits
  distinct : ∀ m ∈ msg :: s.net, ∀ n ∈ msg :: s.net, ∀ src ∈ m.hashed cmac, ∀ src' ∈ n.hashed cmac,
    cmac src = cmac src' → src = src'
  unnamed : ∀ m ∈ msg :: s.net, ∀ src ∈ m.hashed cmac,
    (∀ p ∈ cfg.peerToEventMap.keys, (cmac src).bytes ≠ p.bytes) ∧
      ∀ n ∈ s.net, (cmac src).bytes ≠ n.target.bytes

instance (s : World) (msg : Message) : Decidable (Sealed cmac cfg s msg) :=
  decidable_of_iff ((∀ m ∈ msg :: s.net, m.Fits) ∧
      (∀ m ∈ msg :: s.net, ∀ n ∈ msg :: s.net, ∀ src ∈ m.hashed cmac, ∀ src' ∈ n.hashed cmac,
        cmac src = cmac src' → src = src') ∧
      ∀ m ∈ msg :: s.net, ∀ src ∈ m.hashed cmac,
        (∀ p ∈ cfg.peerToEventMap.keys, (cmac src).bytes ≠ p.bytes) ∧
          ∀ n ∈ s.net, (cmac src).bytes ≠ n.target.bytes)
    ⟨fun ⟨fits, distinct, unnamed⟩ ↦ ⟨fits, distinct, unnamed⟩,
      fun ⟨fits, distinct, unnamed⟩ ↦ ⟨fits, distinct, unnamed⟩⟩

/-- What is handed in is sealed; a code that validates was computed by an enclave for what it sent;
nothing is of the twin type of what was sent; and no status left uninitialised reads as a failure. -/
def Unbroken (s : World) (a : HostAction) : Prop :=
  match a.call with
  | .recv msg mac unset => unset.success = true ∧ Sealed cmac cfg s msg ∧
      (mac = msg.tag cmac → ∃ m ∈ s.net, ∃ src ∈ m.hashed cmac, mac = cmac src) ∧
      ∀ m ∈ s.net, m.retyped = some msg → msg ∈ s.net
  | _ => True

/-- The worlds that hosts reach. -/
inductive HostRun : List (World × HostAction) → World → Prop
  | initial : HostRun [] (World.initial cfg)
  | step {h : List (World × HostAction)} {s t : World} {a : HostAction} (run : HostRun h s)
      (unbroken : Unbroken cmac cfg s a) (next : s.hostStep cmac cfg a = some t) :
      HostRun ((s, a) :: h) t

/-- What the network delivers is sealed. -/
def DeliversSealed (_ : Hist) (s : World) (a : Action) : Prop :=
  match a.call with
  | .recv msg => Sealed cmac cfg s msg
  | _ => True

instance (h : Hist) (s : World) (a : Action) : Decidable (DeliversSealed cmac cfg h s a) := by
  unfold DeliversSealed
  induction a.call using Call.casesOn <;> infer_instance

end

section
variable {cmac : List UInt8 → CmacTag} {cfg : Config} {s t : World}

private theorem Sealed.injOn {m msg : Message} (isSealed : Sealed cmac cfg s msg)
    (hm : m ∈ msg :: s.net) :
    Set.InjOn cmac {src | src ∈ m.hashed cmac ∨ src ∈ msg.hashed cmac} := by
  have hashed (src : List UInt8) (h : src ∈ m.hashed cmac ∨ src ∈ msg.hashed cmac) :
      ∃ n ∈ msg :: s.net, src ∈ n.hashed cmac := by
    rcases h with h | h
    · exact ⟨m, hm, h⟩
    · exact ⟨msg, List.mem_cons_self, h⟩
  intro src hsrc src' hsrc' code
  obtain ⟨n, hn, inside⟩ := hashed src hsrc
  obtain ⟨n', hn', inside'⟩ := hashed src' hsrc'
  exact isSealed.distinct n hn n' hn' src inside src' inside' code

/-- A message that is not dropped was sent, or is of the twin type of one. -/
theorem Sealed.sent {msg : Message} {mac : CmacTag} (isSealed : Sealed cmac cfg s msg)
    (valid : mac = msg.tag cmac) (known : ∃ m ∈ s.net, ∃ src ∈ m.hashed cmac, mac = cmac src)
    (addressed : msg.isLogRsp = false → msg.target ∈ cfg.peerToEventMap) :
    msg ∈ s.net ∨ ∃ m ∈ s.net, m.retyped = some msg := by
  obtain ⟨m, hm, src, hsrc, code⟩ := known
  have hm' := List.mem_cons_of_mem msg hm
  have target (req : LogReq) (hreq : m = .logReq req) (str : List UInt8)
      (hstr : str ∈ msg.hashed cmac) : (cmac str).bytes ≠ req.target.bytes := by
    subst hreq
    exact (isSealed.unnamed msg List.mem_cons_self str hstr).2 _ hm
  have target' (req : LogReq) (hreq : msg = .logReq req) (str : List UInt8)
      (hstr : str ∈ m.hashed cmac) : (cmac str).bytes ≠ req.target.bytes := by
    subst hreq
    exact (isSealed.unnamed m hm' str hstr).1 _ (Std.ExtTreeMap.mem_keys.mpr (addressed rfl))
  rcases Message.eq_or_retyped (isSealed.fits m hm') (isSealed.fits msg List.mem_cons_self)
    (isSealed.injOn hm') target target' hsrc (valid.symm.trans code) with rfl | retyped
  · exact Or.inl hm
  · exact Or.inr ⟨m, hm, retyped⟩

/-- A message under a wrong code is dropped. -/
theorem ignores_of_invalid (o : Oracle) (msg : Message) (e : EnclaveState) :
    Ignores (receive o false msg) e := by
  by_cases noLog : msg.isLogRsp = false
  · exact ignores_of_foreign o (Or.inl rfl) noLog
  · cases msg with
    | logRsp rsp => exact (ignores_recvLogRsp_iff false rsp e).mpr rfl
    | _ => exact absurd rfl noLog

/-- A call that ignores what it is given is no step at all. -/
theorem World.hostStep_of_ignores {a : HostAction} (configured : a.peer ∈ cfg.peerToEventMap)
    (ignores : Ignores (a.call.body cmac a.oracle) (s.enclave a.peer)) :
    s.hostStep cmac cfg a = some s := by
  unfold World.hostStep
  rw [if_pos configured, ignores]
  simp [World.enclave]

/-- A call that a network could make for the host. -/
theorem World.hostStep_of_body {a : HostAction} {b : Action} (peer : b.peer = a.peer)
    (allowed : b.Allowed cfg s)
    (body : b.call.body b.oracle = a.call.body cmac a.oracle) :
    s.hostStep cmac cfg a = s.step cfg b := by
  unfold World.hostStep World.step World.enclave
  rw [if_pos allowed, if_pos (peer ▸ allowed.1), peer]
  exact body ▸ rfl

/-- A step of a host changes nothing, or is one of the network. -/
theorem World.hostStep_cases (place : Local cfg s) {a : HostAction}
    (unbroken : Unbroken cmac cfg s a) (next : s.hostStep cmac cfg a = some t) :
    t = s ∨ ∃ b, DeliversSealed cmac cfg [] s b ∧ s.step cfg b = some t := by
  have hp : a.peer ∈ cfg.peerToEventMap := by
    by_contra h
    unfold World.hostStep at next
    rw [if_neg h] at next
    exact nomatch next
  obtain ⟨peer, call, o⟩ := a
  -- what is no delivery is the same call
  have same (b : Call) (allowed : Action.Allowed cfg s ⟨peer, b, o⟩)
      (delivers : DeliversSealed cmac cfg [] s ⟨peer, b, o⟩)
      (body : b.body o = call.body cmac o) :
      ∃ b, DeliversSealed cmac cfg [] s b ∧ s.step cfg b = some t :=
    ⟨_, delivers, (World.hostStep_of_body (a := ⟨peer, call, o⟩) rfl allowed body) ▸ next⟩
  cases call with
  | setTime ticks => exact Or.inr (same (.setTime ticks) ⟨hp, trivial⟩ trivial rfl)
  | execute event => exact Or.inr (same (.execute event) ⟨hp, trivial⟩ trivial rfl)
  | getHistory => exact Or.inr (same .getHistory ⟨hp, trivial⟩ trivial rfl)
  | recv msg mac unset =>
    obtain ⟨status, isSealed, known, untwisted⟩ := unbroken
    by_cases dropped : Ignores ((HostCall.recv msg mac unset).body cmac o) (s.enclave peer)
    · have stays := World.hostStep_of_ignores (a := ⟨peer, .recv msg mac unset, o⟩) hp dropped
      exact Or.inl (Option.some.inj (next.symm.trans stays))
    · have valid : msg.validate cmac unset mac = true := by
        by_contra invalid
        refine dropped ?_
        change Ignores (receive o (msg.validate cmac unset mac) msg) _
        rw [Bool.eq_false_iff.mpr invalid]
        exact ignores_of_invalid o msg _
      have code := (Message.validate_iff status mac).mp valid
      have addressed (noLog : msg.isLogRsp = false) : msg.target ∈ cfg.peerToEventMap := by
        by_contra foreign
        refine dropped (ignores_of_foreign o (Or.inr fun target ↦ foreign ?_) noLog)
        rw [target, show (s.enclave peer).self.id = peer from (place.placed peer).1]
        exact hp
      have sent : msg ∈ s.net := by
        rcases isSealed.sent code (known code) addressed with sent | ⟨m, hm, retyped⟩
        · exact sent
        · exact untwisted m hm retyped
      refine Or.inr (same (.recv msg) ⟨hp, sent⟩ isSealed ?_)
      change receive o true msg = receive o (msg.validate cmac unset mac) msg
      rw [valid]

/-- With ideal codes, and where no poll is handed in as an election, hosts reach the worlds that
the network reaches. `src/enclave/crypto.h:20–43`, `src/enclave/enclave.cpp:11–113,463–946`. -/
theorem hosts_reach_iff (cmac : List UInt8 → CmacTag) (cfg : Config) (s : World) :
    (∃ h, HostRun cmac cfg h s) ↔ ∃ h, Run cfg (DeliversSealed cmac cfg) h s := by
  constructor
  · rintro ⟨h, run⟩
    induction run with
    | initial => exact ⟨[], .initial⟩
    | step run unbroken next ih =>
      obtain ⟨h', run'⟩ := ih
      rcases World.hostStep_cases run'.local unbroken next with rfl | ⟨b, meets, step⟩
      · exact ⟨h', run'⟩
      · exact ⟨_, run'.step meets step⟩
  · rintro ⟨h, run⟩
    induction run with
    | initial => exact ⟨[], .initial⟩
    | @step h s t b run meets next ih =>
      obtain ⟨h', run'⟩ := ih
      have allowed := (World.step_cases next).1
      obtain ⟨peer, call, o⟩ := b
      have same (a : HostCall) (unbroken : Unbroken cmac cfg s ⟨peer, a, o⟩)
          (body : call.body o = a.body cmac o) : ∃ h, HostRun cmac cfg h t :=
        ⟨_, run'.step unbroken ((World.hostStep_of_body rfl allowed body).trans next)⟩
      cases call with
      | setTime ticks => exact same (.setTime ticks) trivial rfl
      | execute event => exact same (.execute event) trivial rfl
      | getHistory => exact same .getHistory trivial rfl
      | recv msg =>
        obtain ⟨src, hsrc, code⟩ : ∃ src ∈ msg.hashed cmac, msg.tag cmac = cmac src :=
          msg.exists_hashed_tag
        have sent : msg ∈ s.net := allowed.2
        have valid : msg.validate cmac ⟨true, zeroTag⟩ (msg.tag cmac) = true :=
          (Message.validate_iff rfl _).mpr rfl
        refine same (.recv msg (msg.tag cmac) ⟨true, zeroTag⟩)
          ⟨rfl, meets, fun _ ↦ ⟨msg, sent, src, hsrc, code⟩, fun _ _ _ ↦ sent⟩ ?_
        change receive o true msg =
          receive o (msg.validate cmac ⟨true, zeroTag⟩ (msg.tag cmac)) msg
        rw [valid]

end

/-- A code that folds what is hashed. -/
def folded (src : List UInt8) : CmacTag :=
  ⟨littleEndian 16 (src.foldl (fun code b ↦ (257 * code + b.toNat + 1) % (2 ^ 127 - 1)) 1), by simp⟩

/-- Hosts of two peers see one of them elected. -/
theorem duo_hosts_reach : ∃ s, (∃ h, HostRun folded duo h s) ∧
    (s.peers ⟨0, 11⟩).role = .leader := by
  obtain ⟨h, s, run, leads⟩ := exists_run_of_replay duo (DeliversSealed folded duo)
    [.tick ⟨0, 11⟩ 1 emptyUid, .tick ⟨0, 12⟩ 1 emptyUid, .tick ⟨0, 11⟩ 10000 emptyUid,
      .deliver ⟨0, 12⟩ 0, .deliver ⟨0, 11⟩ 1, .deliver ⟨0, 12⟩ 2, .deliver ⟨0, 11⟩ 3,
      .deliver ⟨0, 12⟩ 4]
    (fun _ s ↦ (s.peers ⟨0, 11⟩).role = .leader) (by decide +kernel)
  exact ⟨s, (hosts_reach_iff folded duo s).mpr ⟨h, run⟩, leads⟩

end TrustedDcr.System
