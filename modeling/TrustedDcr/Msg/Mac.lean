import TrustedDcr.Msg.Types

/-!
# Authentication of the flat structures

`src/enclave/crypto.h:20–43`. A flat structure is authenticated by a code over its
packed bytes up to the `mac` field; nothing in them names the type. Two types of
one layout share their codes, and types of different lengths do not.
-/

namespace TrustedDcr.Msg

/-! ### Packed bytes -/

/-- The bytes of a word, the lowest first. -/
def littleEndian (width value : Nat) : List UInt8 :=
  (List.range width).map fun i ↦ UInt8.ofNat (value / 256 ^ i)

/-- A little-endian number has the width asked for. -/
@[simp] theorem length_littleEndian (width value : Nat) :
    (littleEndian width value).length = width := by
  simp [littleEndian]

/-- The lowest byte comes first. -/
theorem littleEndian_succ (width value : Nat) :
    littleEndian (width + 1) value = UInt8.ofNat value :: littleEndian width (value / 256) := by
  unfold littleEndian
  rw [List.range_succ_eq_map, List.map_cons, List.map_map, Nat.pow_zero, Nat.div_one]
  congr 2
  ext i
  rw [Function.comp_apply, Nat.succ_eq_add_one, Nat.pow_succ', Nat.div_div_eq_div_mul]

/-- `uid_t`. `src/enclave/msg.h:6–9`. -/
def Uid.bytes (uid : Uid) : List UInt8 :=
  littleEndian 8 uid.id1.toNat ++ littleEndian 8 uid.id2.toNat

/-- `command_type_t`, numbered in the order of its declaration. `src/enclave/msg.h:13–18`. -/
def CommandType.bytes : CommandType → List UInt8
  | .lock => littleEndian 4 0
  | .abort => littleEndian 4 1
  | .exec => littleEndian 4 2
  | .checkpoint => littleEndian 4 3

/-- `command_tag_t`. `src/enclave/msg.h:20–23`. -/
def CommandTag.bytes (tag : CommandTag) : List UInt8 := tag.uid.bytes ++ tag.type.bytes

/-- A `bool` takes one byte. -/
def boolByte (b : Bool) : List UInt8 := [if b then 1 else 0]

/-- A `uid_t` is two 64-bit words. -/
@[simp] theorem Uid.length_bytes (uid : Uid) : uid.bytes.length = 16 := by
  simp [Uid.bytes]

/-- A `command_t` is four bytes wide. -/
@[simp] theorem CommandType.length_bytes (type : CommandType) : type.bytes.length = 4 := by
  cases type <;> simp [CommandType.bytes]

/-- A packed `command_tag_t` is a uid and a command. -/
@[simp] theorem CommandTag.length_bytes (tag : CommandTag) : tag.bytes.length = 20 := by
  simp [CommandTag.bytes]

/-- A `bool` takes one byte. -/
@[simp] theorem length_boolByte (b : Bool) : (boolByte b).length = 1 := rfl

/-- `command_req_t` up to its `mac`. `src/enclave/msg.h:25–31`. -/
def CommandReq.bytes (req : CommandReq) : List UInt8 :=
  req.target.bytes ++ req.source.bytes ++ req.tag.bytes ++ req.event.bytes

/-- `command_rsp_t` up to its `mac`. `src/enclave/msg.h:33–40`. -/
def CommandRsp.bytes (rsp : CommandRsp) : List UInt8 :=
  rsp.target.bytes ++ rsp.source.bytes ++ rsp.tag.bytes ++ boolByte rsp.success ++ rsp.leader.bytes

/-- `append_rsp_t` up to its `mac`. `src/enclave/msg.h:64–73`. -/
def AppendRsp.bytes (rsp : AppendRsp) : List UInt8 :=
  rsp.target.bytes ++ rsp.source.bytes ++ littleEndian 4 rsp.term ++ littleEndian 4 rsp.prevTerm ++
    littleEndian 4 rsp.prevIndex ++ boolByte rsp.success ++ littleEndian 4 rsp.lastIndex

/-- `poll_req_t` up to its `mac`. `src/enclave/msg.h:77–84`. -/
def PollReq.bytes (req : PollReq) : List UInt8 :=
  req.target.bytes ++ req.source.bytes ++ littleEndian 4 req.term ++ littleEndian 4 req.lastTerm ++
    littleEndian 4 req.lastIndex

/-- `poll_rsp_t` up to its `mac`. `src/enclave/msg.h:86–92`. -/
def PollRsp.bytes (rsp : PollRsp) : List UInt8 :=
  rsp.target.bytes ++ rsp.source.bytes ++ littleEndian 4 rsp.term ++ boolByte rsp.success

/-- `election_req_t` up to its `mac`. `src/enclave/msg.h:96–103`. -/
def ElectionReq.bytes (req : ElectionReq) : List UInt8 :=
  req.target.bytes ++ req.source.bytes ++ littleEndian 4 req.term ++ littleEndian 4 req.lastTerm ++
    littleEndian 4 req.lastIndex

/-- `election_rsp_t` up to its `mac`. `src/enclave/msg.h:105–111`. -/
def ElectionRsp.bytes (rsp : ElectionRsp) : List UInt8 :=
  rsp.target.bytes ++ rsp.source.bytes ++ littleEndian 4 rsp.term ++ boolByte rsp.success

/-- `log_req_t` up to its `mac`. `src/enclave/msg.h:115–119`. -/
def LogReq.bytes (req : LogReq) : List UInt8 := req.target.bytes ++ req.source.bytes

/-! ### The flat structures -/

/-- The types that `set_mac_flat_msg` and `validate_flat_msg` are used at. -/
inductive FlatType where
  | commandReq
  | commandRsp
  | appendRsp
  | pollReq
  | pollRsp
  | electionReq
  | electionRsp
  | logReq
  deriving DecidableEq, Repr

namespace FlatType

/-- The structure, but for its `mac`. -/
def Fields : FlatType → Type
  | commandReq => CommandReq
  | commandRsp => CommandRsp
  | appendRsp => AppendRsp
  | pollReq => PollReq
  | pollRsp => PollRsp
  | electionReq => ElectionReq
  | electionRsp => ElectionRsp
  | logReq => LogReq

/-- What the code is computed over. -/
def bytes : (T : FlatType) → T.Fields → List UInt8
  | commandReq => CommandReq.bytes
  | commandRsp => CommandRsp.bytes
  | appendRsp => AppendRsp.bytes
  | pollReq => PollReq.bytes
  | pollRsp => PollRsp.bytes
  | electionReq => ElectionReq.bytes
  | electionRsp => ElectionRsp.bytes
  | logReq => LogReq.bytes

/-- The offset of `mac`. -/
def size : FlatType → Nat
  | commandReq => 68
  | commandRsp => 69
  | appendRsp => 49
  | pollReq | electionReq => 44
  | pollRsp | electionRsp => 37
  | logReq => 32

/-- The other type of the same layout, where there is one. -/
def twin : FlatType → Option FlatType
  | pollReq => some electionReq
  | electionReq => some pollReq
  | pollRsp => some electionRsp
  | electionRsp => some pollRsp
  | _ => none

/-- The hashed bytes of a flat message have its packed size, whatever its fields hold. -/
theorem length_bytes (T : FlatType) (fields : T.Fields) : (T.bytes fields).length = T.size := by
  cases T with
  | commandReq => simp [bytes, CommandReq.bytes, size]
  | commandRsp => simp [bytes, CommandRsp.bytes, size]
  | appendRsp => simp [bytes, AppendRsp.bytes, size]
  | pollReq => simp [bytes, PollReq.bytes, size]
  | pollRsp => simp [bytes, PollRsp.bytes, size]
  | electionReq => simp [bytes, ElectionReq.bytes, size]
  | electionRsp => simp [bytes, ElectionRsp.bytes, size]
  | logReq => simp [bytes, LogReq.bytes, size]

/-- Only twins are of one size. -/
theorem size_ne {T U : FlatType} (ne : T ≠ U) (apart : T.twin ≠ some U) : T.size ≠ U.size := by
  revert ne apart
  cases T <;> cases U <;> decide

/-- Twins have the same bytes for the same words. -/
theorem exists_bytes_eq {T U : FlatType} (twins : T.twin = some U) :
    ∃ (m : T.Fields) (n : U.Fields), T.bytes m = U.bytes n := by
  cases T with
  | pollReq =>
    obtain rfl : electionReq = U := Option.some.inj twins
    exact ⟨PollReq.mk emptyUid emptyUid 0 0 0, ElectionReq.mk emptyUid emptyUid 0 0 0, rfl⟩
  | electionReq =>
    obtain rfl : pollReq = U := Option.some.inj twins
    exact ⟨ElectionReq.mk emptyUid emptyUid 0 0 0, PollReq.mk emptyUid emptyUid 0 0 0, rfl⟩
  | pollRsp =>
    obtain rfl : electionRsp = U := Option.some.inj twins
    exact ⟨PollRsp.mk emptyUid emptyUid 0 true, ElectionRsp.mk emptyUid emptyUid 0 true, rfl⟩
  | electionRsp =>
    obtain rfl : pollRsp = U := Option.some.inj twins
    exact ⟨ElectionRsp.mk emptyUid emptyUid 0 true, PollRsp.mk emptyUid emptyUid 0 true, rfl⟩
  | commandReq | commandRsp | appendRsp | logReq => exact nomatch twins

end FlatType

/-- A structure with its `mac`. -/
structure FlatMsg (T : FlatType) (Tag : Type) where
  fields : T.Fields
  mac : Tag

section
variable {Tag : Type} [DecidableEq Tag] (cmac : List UInt8 → Tag) {T : FlatType}

/-- `get_mac_flattened`; `cmac` is `sgx_rijndael128_cmac_msg` under the key of the enclaves.
`src/enclave/crypto.h:20–27`. -/
def getMacFlattened (msg : FlatMsg T Tag) : Tag := cmac (T.bytes msg.fields)

/-- `set_mac_flat_msg`. `src/enclave/crypto.h:29–35`. -/
def setMacFlatMsg (msg : FlatMsg T Tag) : FlatMsg T Tag :=
  { msg with mac := getMacFlattened cmac msg }

/-- `validate_flat_msg`, with `cmp_macs`. `src/enclave/crypto.h:37–43`. -/
def validateFlatMsg (msg : FlatMsg T Tag) : Bool := msg.mac = getMacFlattened cmac msg

variable {cmac}

/-- A code set for one type is rejected by another exactly when the two are no twins.
`src/enclave/crypto.h:20–43`. -/
theorem validateFlatMsg_eq_false_iff (inj : Function.Injective cmac) {U : FlatType} (ne : T ≠ U) :
    (∀ (m : FlatMsg T Tag) (n : U.Fields),
      validateFlatMsg cmac ⟨n, (setMacFlatMsg cmac m).mac⟩ = false) ↔ T.twin ≠ some U := by
  constructor
  · intro rejected twins
    obtain ⟨m, n, heq⟩ := FlatType.exists_bytes_eq twins
    have hcode : cmac (T.bytes m) = cmac (U.bytes n) := congrArg cmac heq
    have haccepted : validateFlatMsg cmac ⟨n, (setMacFlatMsg cmac ⟨m, cmac []⟩).mac⟩ = true :=
      decide_eq_true hcode
    rw [rejected] at haccepted
    exact Bool.noConfusion haccepted
  · intro apart m n
    apply decide_eq_false
    intro hcode
    have hlen := congrArg List.length (inj hcode)
    rw [FlatType.length_bytes, FlatType.length_bytes] at hlen
    exact FlatType.size_ne ne apart hlen

end

/-- A command's code is no response's, where the code is the bytes themselves. -/
theorem commandReq_rejected_as_commandRsp :
    let req : CommandReq := ⟨⟨0, 11⟩, ⟨0, 21⟩, ⟨⟨0, 101⟩, .lock⟩, ⟨0, 1⟩⟩
    let rsp : CommandRsp := ⟨⟨0, 11⟩, ⟨0, 21⟩, ⟨⟨0, 101⟩, .lock⟩, true, emptyUid⟩
    validateFlatMsg (T := .commandRsp) id
      ⟨rsp, (setMacFlatMsg (T := .commandReq) id ⟨req, []⟩).mac⟩ = false := by
  intro req rsp
  have inj : Function.Injective (id : List UInt8 → List UInt8) := Function.injective_id
  have hiff := validateFlatMsg_eq_false_iff (T := .commandReq) (U := .commandRsp) inj (by decide)
  exact hiff.mpr (by decide) ⟨req, []⟩ rsp

/-- A pre-vote passes for a vote. -/
theorem not_validateFlatMsg_eq_false : ¬ ∀ (Tag : Type) [DecidableEq Tag] (cmac : List UInt8 → Tag)
    (T U : FlatType) (m : FlatMsg T Tag) (n : U.Fields), Function.Injective cmac → T ≠ U →
      validateFlatMsg cmac ⟨n, (setMacFlatMsg cmac m).mac⟩ = false := by
  intro claim
  let poll : PollRsp := ⟨⟨0, 11⟩, ⟨0, 12⟩, 1, true⟩
  let vote : ElectionRsp := ⟨⟨0, 11⟩, ⟨0, 12⟩, 1, true⟩
  have hrejected := claim (List UInt8) id .pollRsp .electionRsp ⟨poll, []⟩ vote
    Function.injective_id (by decide)
  have haccepted : validateFlatMsg (T := .electionRsp) id
      ⟨vote, (setMacFlatMsg (T := .pollRsp) id ⟨poll, []⟩).mac⟩ = true := by
    decide
  rw [haccepted] at hrejected
  exact Bool.noConfusion hrejected

/-! ### Tags -/

/-- `sgx_cmac_128bit_tag_t`. -/
structure CmacTag where
  bytes : List UInt8
  length : bytes.length = 16
  deriving DecidableEq

/-- The tag that `get_mac_list` starts from. `src/enclave/crypto.h:13–14`. -/
def zeroTag : CmacTag := ⟨List.replicate 16 0, rfl⟩

/-- `entry_t`. `src/enclave/msg.h:44–50`. -/
def Entry.bytes (entry : Entry) : List UInt8 :=
  littleEndian 4 entry.index ++ littleEndian 4 entry.term ++ entry.event.bytes ++
    entry.source.bytes ++ entry.tag.bytes

/-- What the uninitialised `ret` and `tag` of the functions below hold: whether the one is
`SGX_SUCCESS`, and the other. -/
structure Unset where
  success : Bool
  tag : CmacTag

/-- `get_mac_list`, over the bytes of the elements: whether it succeeds, and the tag.
`src/enclave/crypto.h:10–18`. -/
def getMacList (cmac : List UInt8 → CmacTag) (unset : Unset) (elements : List (List UInt8)) :
    Bool × CmacTag :=
  if elements.length > 0 then (true, cmac elements.flatten) else (unset.success, zeroTag)

end TrustedDcr.Msg
