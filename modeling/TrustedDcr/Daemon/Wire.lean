import Mathlib.Data.Nat.Digits.Lemmas
import Mathlib.Order.Lattice.Nat
import TrustedDcr.Daemon.Convert
import TrustedDcr.Enclave.Replication
import TrustedDcr.Msg.Nested
import TrustedDcr.System.Foreign

/-!
# Messages on the wire

`pack`, `unpack` and `Send` of the daemon. `src/sgx_daemon/convert.cpp:74–300`,
`src/sgx_daemon/convert.h:24–62`, `src/sgx_daemon/daemon.cpp:105–183`. A message
travels as a container around a payload of its own type. Serialisation is a
parameter; a generated field holds any value of the field it carries.
-/

namespace TrustedDcr.Daemon
open TrustedDcr.Msg TrustedDcr.Enclave TrustedDcr.System TrustedDcr.Theory

/-! ### Identifiers, tags and entries -/

/-- `tdcr::crypto::Mac128`. -/
structure WireMac128 where
  part1 : UInt64
  part2 : UInt64

/-- `tdcr::raft::CommandTag`. -/
structure WireCommandTag where
  uid : WireUid
  type : CommandType
  deriving DecidableEq, Repr

/-- `tdcr::raft::Entry`. -/
structure WireEntry where
  index : Nat
  term : Nat
  event : WireUid
  source : WireUid
  tag : WireCommandTag
  deriving DecidableEq, Repr

/-- `*(uint64_t*)bytes`, for the first eight bytes. -/
def readWord (bytes : List UInt8) : UInt64 :=
  UInt64.ofNat (Nat.ofDigits 256 ((bytes.take 8).map UInt8.toNat))

/-- `from_wire`. `src/sgx_daemon/convert.cpp:12–15`. -/
def WireMac128.fromWire (mac : WireMac128) : CmacTag :=
  ⟨littleEndian 8 mac.part1.toNat ++ littleEndian 8 mac.part2.toNat, by simp⟩

/-- `from_wire`. `src/sgx_daemon/convert.cpp:17–19`. -/
def WireCommandTag.fromWire (tag : WireCommandTag) : CommandTag := ⟨tag.uid.fromWire, tag.type⟩

/-- `from_wire`. `src/sgx_daemon/convert.cpp:21–23`. -/
def WireEntry.fromWire (entry : WireEntry) : Entry where
  index := entry.index
  term := entry.term
  event := entry.event.fromWire
  source := entry.source.fromWire
  tag := entry.tag.fromWire

/-- `to_wire`. `src/sgx_daemon/convert.cpp:74–79`. -/
def uidToWire (uid : Uid) : WireUid := ⟨uid.id1, uid.id2⟩

/-- `to_wire`. `src/sgx_daemon/convert.cpp:81–86`. -/
def macToWire (mac : CmacTag) : WireMac128 := ⟨readWord mac.bytes, readWord (mac.bytes.drop 8)⟩

/-- `to_wire`. `src/sgx_daemon/convert.cpp:88–93`. -/
def tagToWire (tag : CommandTag) : WireCommandTag := ⟨uidToWire tag.uid, tag.type⟩

/-- `to_wire`. `src/sgx_daemon/convert.cpp:95–103`. -/
def entryToWire (entry : Entry) : WireEntry where
  index := entry.index
  term := entry.term
  event := uidToWire entry.event
  source := uidToWire entry.source
  tag := tagToWire entry.tag

/-- A uid survives the wire. -/
@[simp] theorem fromWire_uidToWire (uid : Uid) : (uidToWire uid).fromWire = uid := rfl

/-- Different uids are different on the wire. -/
theorem uidToWire_injective : Function.Injective uidToWire :=
  Function.LeftInverse.injective fromWire_uidToWire

/-- A command tag survives the wire. -/
@[simp] theorem fromWire_tagToWire (tag : CommandTag) : (tagToWire tag).fromWire = tag := rfl

/-- A log entry survives the wire. -/
@[simp] theorem fromWire_entryToWire (entry : Entry) : (entryToWire entry).fromWire = entry := rfl

/-- The bytes of a number are its digits. -/
theorem littleEndian_ofDigits (bytes : List UInt8) :
    littleEndian bytes.length (Nat.ofDigits 256 (bytes.map UInt8.toNat)) = bytes := by
  induction bytes with
  | nil => rfl
  | cons b bytes ih =>
    have hb : b.toNat < 256 := b.toNat_lt
    have hlow : UInt8.ofNat (b.toNat + 256 * Nat.ofDigits 256 (bytes.map UInt8.toNat)) = b := by
      apply UInt8.toNat_inj.mp
      rw [UInt8.toNat_ofNat']
      omega
    rw [List.length_cons, List.map_cons, Nat.ofDigits_cons, littleEndian_succ, hlow,
      show (b.toNat + 256 * Nat.ofDigits 256 (bytes.map UInt8.toNat)) / 256 =
        Nat.ofDigits 256 (bytes.map UInt8.toNat) by omega, ih]

/-- A word written is the word read. -/
theorem littleEndian_readWord {bytes : List UInt8} (h : 8 ≤ bytes.length) :
    littleEndian 8 (readWord bytes).toNat = bytes.take 8 := by
  have hlen : (bytes.take 8).length = 8 := List.length_take_of_le h
  have hlt : Nat.ofDigits 256 ((bytes.take 8).map UInt8.toNat) < 2 ^ 64 := by
    have hdigits := Nat.ofDigits_lt_base_pow_length (b := 256)
      (l := (bytes.take 8).map UInt8.toNat) (by decide) fun x hx ↦ by
        obtain ⟨b, -, rfl⟩ := List.mem_map.mp hx
        exact b.toNat_lt
    rw [List.length_map, hlen] at hdigits
    exact hdigits
  have hword := littleEndian_ofDigits (bytes.take 8)
  rw [hlen] at hword
  unfold readWord
  rw [UInt64.toNat_ofNat', Nat.mod_eq_of_lt hlt, hword]

/-- A CMAC tag survives the wire. -/
@[simp] theorem fromWire_macToWire (mac : CmacTag) : (macToWire mac).fromWire = mac := by
  obtain ⟨bytes, h⟩ := mac
  have hhigh : 8 ≤ (bytes.drop 8).length := by
    rw [List.length_drop]
    omega
  have hall : (bytes.drop 8).take 8 = bytes.drop 8 := List.take_of_length_le (by
    rw [List.length_drop]
    omega)
  simp only [macToWire, WireMac128.fromWire, littleEndian_readWord (by omega : 8 ≤ bytes.length),
    littleEndian_readWord hhigh, hall, List.take_append_drop]

/-! ### Payloads and containers -/

/-- `tdcr::raft::CommandRequest`. -/
structure CommandRequest where
  tag : WireCommandTag
  event : WireUid

/-- `tdcr::raft::CommandResponse`. -/
structure CommandResponse where
  tag : WireCommandTag
  success : Bool
  leader : WireUid

/-- `tdcr::raft::AppendRequest`. -/
structure AppendRequest where
  term : Nat
  prevTerm : Nat
  prevIndex : Nat
  commitIndex : Nat
  entries : List WireEntry

/-- `tdcr::raft::AppendResponse`. -/
structure AppendResponse where
  term : Nat
  prevTerm : Nat
  prevIndex : Nat
  success : Bool
  lastIndex : Nat

/-- `tdcr::raft::PollRequest`. -/
structure PollRequest where
  term : Nat
  lastTerm : Nat
  lastIndex : Nat

/-- `tdcr::raft::PollResponse`. -/
structure PollResponse where
  term : Nat
  success : Bool

/-- `tdcr::raft::ElectionRequest`. -/
structure ElectionRequest where
  term : Nat
  lastTerm : Nat
  lastIndex : Nat

/-- `tdcr::raft::ElectionResponse`. -/
structure ElectionResponse where
  term : Nat
  success : Bool

/-- `tdcr::raft::LogRequest`, which has no field. -/
structure LogRequest where

/-- `tdcr::raft::LogResponse`. -/
structure LogResponse where
  success : Bool
  leader : WireUid
  entries : List WireEntry

/-- The values of `tdcr::network::Container::PayloadType` that name a message. -/
inductive PayloadType where
  | commandRequest
  | commandResponse
  | appendRequest
  | appendResponse
  | pollRequest
  | pollResponse
  | electionRequest
  | electionResponse
  | logRequest
  | logResponse
  deriving DecidableEq, Repr

/-- The generated payload classes. -/
abbrev PayloadType.Payload : PayloadType → Type
  | commandRequest => CommandRequest
  | commandResponse => CommandResponse
  | appendRequest => AppendRequest
  | appendResponse => AppendResponse
  | pollRequest => PollRequest
  | pollResponse => PollResponse
  | electionRequest => ElectionRequest
  | electionResponse => ElectionResponse
  | logRequest => LogRequest
  | logResponse => LogResponse

/-- A payload with no field set. -/
def PayloadType.cleared : (T : PayloadType) → T.Payload
  | commandRequest => ⟨⟨⟨0, 0⟩, .lock⟩, ⟨0, 0⟩⟩
  | commandResponse => ⟨⟨⟨0, 0⟩, .lock⟩, false, ⟨0, 0⟩⟩
  | appendRequest => ⟨0, 0, 0, 0, []⟩
  | appendResponse => ⟨0, 0, 0, false, 0⟩
  | pollRequest => ⟨0, 0, 0⟩
  | pollResponse => ⟨0, false⟩
  | electionRequest => ⟨0, 0, 0⟩
  | electionResponse => ⟨0, false⟩
  | logRequest => {}
  | logResponse => ⟨false, ⟨0, 0⟩, []⟩

/-- `SerializePartialAsString` and `ParsePartialFromString` of each payload class, over strings
of type `Str`. -/
structure Protobuf (Str : Type) where
  serialise : (T : PayloadType) → T.Payload → Str
  parse : (T : PayloadType) → Str → T.Payload

/-- Parsing undoes serialisation. -/
def Protobuf.RoundTrips {Str : Type} (P : Protobuf Str) : Prop :=
  ∀ (T : PayloadType) (payload : T.Payload), P.parse T (P.serialise T payload) = payload

/-- `tdcr::network::Container`; the type is `none` at a value that `Send` does not list. -/
structure Container (Str : Type) where
  target : WireUid
  source : WireUid
  type : Option PayloadType
  payload : Str
  mac : WireMac128

section
variable {Str : Type} (P : Protobuf Str)

/-- `pack_container`; `T` is the class of the payload. `src/sgx_daemon/convert.h:48–57`. -/
def packContainer (T : PayloadType) (target source : Uid) (mac : CmacTag) (payload : T.Payload)
    (type : PayloadType) : Container Str where
  target := uidToWire target
  source := uidToWire source
  type := some type
  payload := P.serialise T payload
  mac := macToWire mac

/-- `unpack_container`: the payload, the target, the source and the mac.
`src/sgx_daemon/convert.h:24–30`. -/
def unpackContainer (T : PayloadType) (cont : Container Str) : T.Payload × Uid × Uid × CmacTag :=
  (P.parse T cont.payload, cont.target.fromWire, cont.source.fromWire, cont.mac.fromWire)

/-! ### The ten messages -/

/-- `pack`. `src/sgx_daemon/convert.cpp:214–219`. -/
def packCommandReq (req : CommandReq) (mac : CmacTag) : Container Str :=
  packContainer P .commandRequest req.target req.source mac
    { tag := tagToWire req.tag, event := uidToWire req.event } .commandRequest

/-- `unpack`. `src/sgx_daemon/convert.cpp:108–114`. -/
def unpackCommandReq (cont : Container Str) : CommandReq × CmacTag :=
  let (payload, target, source, mac) := unpackContainer P .commandRequest cont
  ({ target := target, source := source, tag := payload.tag.fromWire,
     event := payload.event.fromWire }, mac)

/-- `pack`. `src/sgx_daemon/convert.cpp:221–227`. -/
def packCommandRsp (rsp : CommandRsp) (mac : CmacTag) : Container Str :=
  packContainer P .commandResponse rsp.target rsp.source mac
    { tag := tagToWire rsp.tag, success := rsp.success, leader := uidToWire rsp.leader }
    .commandResponse

/-- `unpack`. `src/sgx_daemon/convert.cpp:116–123`. -/
def unpackCommandRsp (cont : Container Str) : CommandRsp × CmacTag :=
  let (payload, target, source, mac) := unpackContainer P .commandResponse cont
  ({ target := target, source := source, tag := payload.tag.fromWire, success := payload.success,
     leader := payload.leader.fromWire }, mac)

/-- `pack`. `src/sgx_daemon/convert.cpp:231–240`. -/
def packAppendReq (req : AppendReq) (mac : CmacTag) : Container Str :=
  packContainer P .appendRequest req.target req.source mac
    { term := req.term, prevTerm := req.prevTerm, prevIndex := req.prevIndex,
      commitIndex := req.commitIndex, entries := req.entries.map entryToWire } .appendRequest

/-- `unpack`. `src/sgx_daemon/convert.cpp:127–140`. -/
def unpackAppendReq (cont : Container Str) : AppendReq × CmacTag :=
  let (payload, target, source, mac) := unpackContainer P .appendRequest cont
  ({ target := target, source := source, term := payload.term, prevTerm := payload.prevTerm,
     prevIndex := payload.prevIndex, commitIndex := payload.commitIndex,
     entries := payload.entries.map WireEntry.fromWire }, mac)

/-- `pack`. `src/sgx_daemon/convert.cpp:242–250`. -/
def packAppendRsp (rsp : AppendRsp) (mac : CmacTag) : Container Str :=
  packContainer P .appendResponse rsp.target rsp.source mac
    { term := rsp.term, prevTerm := rsp.prevTerm, prevIndex := rsp.prevIndex,
      success := rsp.success, lastIndex := rsp.lastIndex } .appendResponse

/-- `unpack`. `src/sgx_daemon/convert.cpp:142–151`. -/
def unpackAppendRsp (cont : Container Str) : AppendRsp × CmacTag :=
  let (payload, target, source, mac) := unpackContainer P .appendResponse cont
  ({ target := target, source := source, term := payload.term, prevTerm := payload.prevTerm,
     prevIndex := payload.prevIndex, success := payload.success,
     lastIndex := payload.lastIndex }, mac)

/-- `pack`. `src/sgx_daemon/convert.cpp:254–260`. -/
def packPollReq (req : PollReq) (mac : CmacTag) : Container Str :=
  packContainer P .pollRequest req.target req.source mac
    { term := req.term, lastTerm := req.lastTerm, lastIndex := req.lastIndex } .pollRequest

/-- `unpack`. `src/sgx_daemon/convert.cpp:155–162`. -/
def unpackPollReq (cont : Container Str) : PollReq × CmacTag :=
  let (payload, target, source, mac) := unpackContainer P .pollRequest cont
  ({ target := target, source := source, term := payload.term, lastTerm := payload.lastTerm,
     lastIndex := payload.lastIndex }, mac)

/-- `pack`. `src/sgx_daemon/convert.cpp:262–267`. -/
def packPollRsp (rsp : PollRsp) (mac : CmacTag) : Container Str :=
  packContainer P .pollResponse rsp.target rsp.source mac
    { term := rsp.term, success := rsp.success } .pollResponse

/-- `unpack`. `src/sgx_daemon/convert.cpp:164–170`. -/
def unpackPollRsp (cont : Container Str) : PollRsp × CmacTag :=
  let (payload, target, source, mac) := unpackContainer P .pollResponse cont
  ({ target := target, source := source, term := payload.term, success := payload.success }, mac)

/-- `pack`. `src/sgx_daemon/convert.cpp:271–277`. -/
def packElectionReq (req : ElectionReq) (mac : CmacTag) : Container Str :=
  packContainer P .electionRequest req.target req.source mac
    { term := req.term, lastTerm := req.lastTerm, lastIndex := req.lastIndex } .electionRequest

/-- `unpack`. `src/sgx_daemon/convert.cpp:174–181`. -/
def unpackElectionReq (cont : Container Str) : ElectionReq × CmacTag :=
  let (payload, target, source, mac) := unpackContainer P .electionRequest cont
  ({ target := target, source := source, term := payload.term, lastTerm := payload.lastTerm,
     lastIndex := payload.lastIndex }, mac)

/-- `pack`. `src/sgx_daemon/convert.cpp:279–284`. -/
def packElectionRsp (rsp : ElectionRsp) (mac : CmacTag) : Container Str :=
  packContainer P .electionResponse rsp.target rsp.source mac
    { term := rsp.term, success := rsp.success } .electionResponse

/-- `unpack`. `src/sgx_daemon/convert.cpp:183–189`. -/
def unpackElectionRsp (cont : Container Str) : ElectionRsp × CmacTag :=
  let (payload, target, source, mac) := unpackContainer P .electionResponse cont
  ({ target := target, source := source, term := payload.term, success := payload.success }, mac)

/-- `pack`. `src/sgx_daemon/convert.cpp:288–291`. -/
def packLogReq (req : LogReq) (mac : CmacTag) : Container Str :=
  packContainer P .logRequest req.target req.source mac {} .logRequest

/-- `unpack`. `src/sgx_daemon/convert.cpp:193–196`. -/
def unpackLogReq (cont : Container Str) : LogReq × CmacTag :=
  let (_, target, source, mac) := unpackContainer P .logRequest cont
  ({ target := target, source := source }, mac)

/-- `pack`. `src/sgx_daemon/convert.cpp:293–300`. -/
def packLogRsp (rsp : LogRsp) (mac : CmacTag) : Container Str :=
  packContainer P .logResponse rsp.target rsp.source mac
    { success := rsp.success, leader := uidToWire rsp.leader,
      entries := rsp.entries.map entryToWire } .logResponse

/-- `unpack`. `src/sgx_daemon/convert.cpp:198–209`. -/
def unpackLogRsp (cont : Container Str) : LogRsp × CmacTag :=
  let (payload, target, source, mac) := unpackContainer P .logResponse cont
  ({ target := target, source := source, success := payload.success,
     leader := payload.leader.fromWire,
     entries := payload.entries.map WireEntry.fromWire }, mac)

/-- The overloads of `pack`, chosen by the type of the message. -/
def pack (msg : Message) (mac : CmacTag) : Container Str :=
  match msg with
  | .commandReq req => packCommandReq P req mac
  | .commandRsp rsp => packCommandRsp P rsp mac
  | .appendReq req => packAppendReq P req mac
  | .appendRsp rsp => packAppendRsp P rsp mac
  | .pollReq req => packPollReq P req mac
  | .pollRsp rsp => packPollRsp P rsp mac
  | .electionReq req => packElectionReq P req mac
  | .electionRsp rsp => packElectionRsp P rsp mac
  | .logReq req => packLogReq P req mac
  | .logRsp rsp => packLogRsp P rsp mac

/-- The overloads of `unpack`, chosen by the type of a message. -/
def unpackAs (like : Message) (cont : Container Str) : Message × CmacTag :=
  match like with
  | .commandReq _ => (unpackCommandReq P cont).map .commandReq id
  | .commandRsp _ => (unpackCommandRsp P cont).map .commandRsp id
  | .appendReq _ => (unpackAppendReq P cont).map .appendReq id
  | .appendRsp _ => (unpackAppendRsp P cont).map .appendRsp id
  | .pollReq _ => (unpackPollReq P cont).map .pollReq id
  | .pollRsp _ => (unpackPollRsp P cont).map .pollRsp id
  | .electionReq _ => (unpackElectionReq P cont).map .electionReq id
  | .electionRsp _ => (unpackElectionRsp P cont).map .electionRsp id
  | .logReq _ => (unpackLogReq P cont).map .logReq id
  | .logRsp _ => (unpackLogRsp P cont).map .logRsp id

/-- `Send`: the message that is passed to an entry point, under the constructor that names the
entry point, and its mac. An unknown type is dropped. `src/sgx_daemon/daemon.cpp:105–183`. -/
def send (cont : Container Str) : Option (Message × CmacTag) :=
  match cont.type with
  | some .commandRequest => some ((unpackCommandReq P cont).map .commandReq id)
  | some .commandResponse => some ((unpackCommandRsp P cont).map .commandRsp id)
  | some .appendRequest => some ((unpackAppendReq P cont).map .appendReq id)
  | some .appendResponse => some ((unpackAppendRsp P cont).map .appendRsp id)
  | some .pollRequest => some ((unpackPollReq P cont).map .pollReq id)
  | some .pollResponse => some ((unpackPollRsp P cont).map .pollRsp id)
  | some .electionRequest => some ((unpackElectionReq P cont).map .electionReq id)
  | some .electionResponse => some ((unpackElectionRsp P cont).map .electionRsp id)
  | some .logRequest => some ((unpackLogReq P cont).map .logReq id)
  | some .logResponse => some ((unpackLogRsp P cont).map .logRsp id)
  | none => none

variable {P}

/-- Packing the payload of one class and unpacking one of the same. -/
theorem unpackContainer_packContainer (parses : P.RoundTrips) (T : PayloadType)
    (target source : Uid) (mac : CmacTag) (payload : T.Payload) (type : PayloadType) :
    unpackContainer P T (packContainer P T target source mac payload type) =
      (payload, target, source, mac) := by
  unfold unpackContainer packContainer
  rw [parses T payload, fromWire_uidToWire, fromWire_uidToWire, fromWire_macToWire]

/-- A list of log entries survives the wire, in its order. -/
theorem map_fromWire_entryToWire (entries : List Entry) :
    (entries.map entryToWire).map WireEntry.fromWire = entries := by
  rw [List.map_map]
  exact List.map_id entries

/-- Each `unpack` undoes the `pack` of its type. -/
theorem unpackAs_pack (parses : P.RoundTrips) (msg : Message) (mac : CmacTag) :
    unpackAs P msg (pack P msg mac) = (msg, mac) := by
  have unpacked := unpackContainer_packContainer parses
  cases msg with
  | commandReq req =>
    simp only [unpackAs, pack, unpackCommandReq, packCommandReq, unpacked]
    rfl
  | commandRsp rsp =>
    simp only [unpackAs, pack, unpackCommandRsp, packCommandRsp, unpacked]
    rfl
  | appendReq req =>
    simp only [unpackAs, pack, unpackAppendReq, packAppendReq, unpacked,
      map_fromWire_entryToWire]
    rfl
  | appendRsp rsp =>
    simp only [unpackAs, pack, unpackAppendRsp, packAppendRsp, unpacked]
    rfl
  | pollReq req =>
    simp only [unpackAs, pack, unpackPollReq, packPollReq, unpacked]
    rfl
  | pollRsp rsp =>
    simp only [unpackAs, pack, unpackPollRsp, packPollRsp, unpacked]
    rfl
  | electionReq req =>
    simp only [unpackAs, pack, unpackElectionReq, packElectionReq, unpacked]
    rfl
  | electionRsp rsp =>
    simp only [unpackAs, pack, unpackElectionRsp, packElectionRsp, unpacked]
    rfl
  | logReq req =>
    simp only [unpackAs, pack, unpackLogReq, packLogReq, unpacked]
    rfl
  | logRsp rsp =>
    simp only [unpackAs, pack, unpackLogRsp, packLogRsp, unpacked, map_fromWire_entryToWire]
    rfl

/-- `Send` unpacks what was packed with the overload of its type. -/
theorem send_pack (msg : Message) (mac : CmacTag) :
    send P (pack P msg mac) = some (unpackAs P msg (pack P msg mac)) := by
  cases msg <;> rfl

variable (P)

/-- `Send`, with the enclave behind it: the entry point validates what was unpacked. -/
def sendToEnclave (o : Oracle) (cmac : List UInt8 → CmacTag) (unset : Unset)
    (cont : Container Str) : Ecall Unit :=
  match send P cont with
  | some (msg, mac) => receive o (msg.validate cmac unset mac) msg
  | none => pure ⟨⟩

/-- A packed message is unpacked as it was and passed to the entry point of its type, for which it
is valid if it was before: `before` and `after` are what the two validations find unset. -/
def Arrives (msg : Message) (mac : CmacTag) : Prop :=
  unpackAs P msg (pack P msg mac) = (msg, mac) ∧
    ∀ (o : Oracle) (cmac : List UInt8 → CmacTag) (before after : Unset),
      sendToEnclave P o cmac after (pack P msg mac) =
        receive o (msg.validate cmac after mac) msg ∧
      (msg.validate cmac before mac = true →
        sendToEnclave P o cmac after (pack P msg mac) = receive o true msg)

variable {P}

/-- `Send` passes a packed message to the entry point of its type. -/
theorem sendToEnclave_pack (parses : P.RoundTrips) (o : Oracle) (cmac : List UInt8 → CmacTag)
    (unset : Unset) (msg : Message) (mac : CmacTag) :
    sendToEnclave P o cmac unset (pack P msg mac) = receive o (msg.validate cmac unset mac) msg := by
  unfold sendToEnclave
  rw [send_pack, unpackAs_pack parses]

/-- A message whose code does not validate is ignored. -/
theorem ignores_invalid (o : Oracle) (msg : Message) (s : EnclaveState) :
    Ignores (receive o false msg) s := by
  cases noLog : msg.isLogRsp with
  | false => exact ignores_of_foreign o (Or.inl rfl) noLog
  | true =>
    cases msg with
    | logRsp rsp => exact (ignores_recvLogRsp_iff false rsp s).mpr rfl
    | _ => simp [Message.isLogRsp] at noLog

/-- A valid message with an array is not, by some enclave. -/
theorem exists_not_ignores (o : Oracle) (msg : Message) (nested : msg.array.isSome = true) :
    ∃ s, ¬ Ignores (receive o true msg) s := by
  cases msg with
  | appendReq req =>
    -- a peer in a later term refuses the request
    let s : EnclaveState :=
      ⟨{ Peer.zero with id := req.target, term := req.term + 1 }, [], [], []⟩
    have verified : verifyMacAndOwnTerm true req.target req.source req.term s = .ok (true, s) :=
      verifyMacAndOwnTerm_of_le req.source rfl (Nat.le_succ _)
    refine ⟨s, fun ignores ↦ ?_⟩
    have call : recvAppendReq o true req s = .ok (⟨⟩, s) := ignores
    unfold recvAppendReq at call
    rw [bind_of_ok verified, if_pos rfl, getSelf_bind,
      bind_of_ok (verifyMsgTerm_of_lt _ (Nat.lt_succ_self _)), if_neg (by decide)] at call
    have sent : s.sent ++ [_] = s.sent :=
      congrArg (fun r : Unit × EnclaveState ↦ r.2.sent) (Except.ok.inj call)
    exact absurd sent (by simp)
  | logRsp rsp =>
    refine ⟨⟨Peer.zero, [], [], []⟩, fun ignores ↦ ?_⟩
    exact recvLogRsp_acts rsp _ _ _ ignores rfl
  | _ => simp [Message.array] at nested

/-- A message arrives, under every code and whatever the two validations find unset, exactly if it
points to no empty array. `src/sgx_daemon/convert.cpp:105–300`,
`src/sgx_daemon/daemon.cpp:105–183`, `src/enclave/crypto.h:10–18`. -/
theorem packed_message_arrives_iff (parses : P.RoundTrips) (msg : Message) :
    (∀ mac, Arrives P msg mac) ↔ msg.array ≠ some [] := by
  constructor
  · intro arrives empty
    let ones : CmacTag := ⟨List.replicate 16 1, rfl⟩
    let cmac : List UInt8 → CmacTag := fun _ ↦ zeroTag
    have valid : msg.validate cmac ⟨false, zeroTag⟩ zeroTag = true :=
      decide_eq_true (Message.getMac_of_empty empty zeroTag).symm
    have invalid : msg.validate cmac ⟨false, ones⟩ zeroTag = false := by
      unfold Message.validate
      rw [Message.getMac_of_empty empty]
      decide
    obtain ⟨s, acts⟩ := exists_not_ignores silent msg (by simp [empty])
    obtain ⟨passed, remains⟩ := (arrives zeroTag).2 silent cmac ⟨false, zeroTag⟩ ⟨false, ones⟩
    apply acts
    rw [← remains valid, passed, invalid]
    exact ignores_invalid silent msg s
  · intro filled mac
    refine ⟨unpackAs_pack parses msg mac, fun o cmac before after ↦
      ⟨sendToEnclave_pack parses o cmac after msg mac, fun valid ↦ ?_⟩⟩
    have again : msg.validate cmac after mac = true := by
      unfold Message.validate at valid ⊢
      rwa [Message.getMac_of_filled filled]
    rw [sendToEnclave_pack parses, again]

/-- A serialisation that keeps the record itself, and reads any other record as a cleared one. -/
def recorded : Protobuf (Σ T : PayloadType, T.Payload) where
  serialise T payload := ⟨T, payload⟩
  parse T str := if h : str.1 = T then h ▸ str.2 else T.cleared

/-- Payloads that are kept as they are parse back to themselves. -/
theorem recorded_roundTrips : recorded.RoundTrips := fun _ _ ↦ dif_pos rfl

/-- A response with one entry arrives. -/
theorem packed_log_rsp_arrives : Arrives recorded (.logRsp
    { target := ⟨0, 21⟩, source := ⟨0, 11⟩, success := true, leader := emptyUid,
      entries := [getEmptyEntry] }) zeroTag :=
  (packed_message_arrives_iff recorded_roundTrips _).mpr (by decide) zeroTag

/-- A heartbeat that is sent under its code is refused if the status of the second validation happens
to be a failure. -/
theorem not_packed_message_arrives : ¬ ∀ (Str : Type) (P : Protobuf Str), P.RoundTrips →
    ∀ (msg : Message) (mac : CmacTag), Arrives P msg mac := by
  intro claim
  let heartbeat : Message := .appendReq ⟨⟨0, 12⟩, ⟨0, 11⟩, 1, 0, 0, 0, []⟩
  let cmac : List UInt8 → CmacTag := fun _ ↦ zeroTag
  let after : Unset := ⟨false, ⟨List.replicate 16 1, rfl⟩⟩
  obtain ⟨passed, remains⟩ :=
    (claim _ recorded recorded_roundTrips heartbeat zeroTag).2 silent cmac ⟨true, zeroTag⟩ after
  obtain ⟨s, acts⟩ := exists_not_ignores silent heartbeat rfl
  have invalid : heartbeat.validate cmac after zeroTag = false := by decide
  apply acts
  rw [← remains (by decide), passed, invalid]
  exact ignores_invalid silent heartbeat s

end

end TrustedDcr.Daemon
