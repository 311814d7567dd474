import TrustedDcr.Msg.Mac
import TrustedDcr.Theory.Codes

/-!
# Authentication of the nested structures

`append_req_t` and `log_rsp_t` point to their entries. `src/enclave/crypto.cpp:11–90`:
their code is one over two codes, that of a copy of the structure with a null pointer
and that of the entries. Every field is under it; but the code of no entries at all
has a status that nothing sets.
-/

namespace TrustedDcr.Msg
open TrustedDcr.Theory

/-! ### Bytes that can be read back -/

/-- The lowest byte of a number. -/
theorem splits_littleEndian (width : Nat) :
    Splits (littleEndian width) fun value ↦ value < 256 ^ width := by
  apply Splits.of_length (length_littleEndian width)
  intro a b ha hb heq
  induction width generalizing a b with
  | zero => omega
  | succ width ih =>
    rw [littleEndian_succ, littleEndian_succ, List.cons.injEq] at heq
    obtain ⟨hlow, hhigh⟩ := heq
    have hlow : a % 256 = b % 256 := by
      have := congrArg UInt8.toNat hlow
      rwa [UInt8.toNat_ofNat', UInt8.toNat_ofNat'] at this
    have hhigh : a / 256 = b / 256 := by
      rw [Nat.pow_succ] at ha hb
      exact ih (Nat.div_lt_of_lt_mul (by omega)) (Nat.div_lt_of_lt_mul (by omega)) hhigh
    omega

/-- The bytes of a uid determine it and end where it ends. -/
theorem splits_uid : Splits Uid.bytes fun _ ↦ True := by
  intro a b s t _ _ heq
  unfold Uid.bytes at heq
  rw [List.append_assoc, List.append_assoc] at heq
  obtain ⟨h1, htail⟩ := splits_littleEndian 8 a.id1.toNat_lt b.id1.toNat_lt heq
  obtain ⟨h2, hrest⟩ := splits_littleEndian 8 a.id2.toNat_lt b.id2.toNat_lt htail
  cases a
  cases b
  exact ⟨congrArg₂ Uid.mk (UInt64.toNat_inj.mp h1) (UInt64.toNat_inj.mp h2), hrest⟩

private theorem splits_commandType : Splits CommandType.bytes fun _ ↦ True := by
  apply Splits.of_length CommandType.length_bytes
  intro a b _ _ heq
  revert heq
  cases a <;> cases b <;> decide

/-- The bytes of a command tag determine it and end where it ends. -/
theorem splits_commandTag : Splits CommandTag.bytes fun _ ↦ True := by
  intro a b s t _ _ heq
  unfold CommandTag.bytes at heq
  rw [List.append_assoc, List.append_assoc] at heq
  obtain ⟨huid, htail⟩ := splits_uid trivial trivial heq
  obtain ⟨htype, hrest⟩ := splits_commandType trivial trivial htail
  cases a
  cases b
  exact ⟨congrArg₂ CommandTag.mk huid htype, hrest⟩

/-- The byte of a boolean determines it. -/
theorem splits_boolByte : Splits boolByte fun _ ↦ True := by
  apply Splits.of_length length_boolByte
  intro a b _ _ heq
  revert heq
  cases a <;> cases b <;> decide

/-- The numbers of the entry fit their fields. -/
def Entry.Fits (entry : Entry) : Prop := entry.index < 2 ^ 32 ∧ entry.term < 2 ^ 32

instance (entry : Entry) : Decidable entry.Fits := inferInstanceAs (Decidable (_ ∧ _))

/-- A packed `entry_t` is 60 bytes long. -/
@[simp] theorem Entry.length_bytes (entry : Entry) : entry.bytes.length = 60 := by
  simp [Entry.bytes]

/-- The bytes of an entry determine it where its numbers fit their width. -/
theorem splits_entry : Splits Entry.bytes Entry.Fits := by
  intro a b s t ha hb heq
  unfold Entry.bytes at heq
  simp only [List.append_assoc] at heq
  obtain ⟨hindex, heq⟩ := splits_littleEndian 4 ha.1 hb.1 heq
  obtain ⟨hterm, heq⟩ := splits_littleEndian 4 ha.2 hb.2 heq
  obtain ⟨hevent, heq⟩ := splits_uid trivial trivial heq
  obtain ⟨hsource, heq⟩ := splits_uid trivial trivial heq
  obtain ⟨htag, heq⟩ := splits_commandTag trivial trivial heq
  cases a
  cases b
  simp_all

/-! ### The nested structures -/

/-- The types with a `get_mac_*`, `set_mac_*` and `validate_*` of their own. -/
inductive NestedType where
  | appendReq
  | logRsp
  deriving DecidableEq, Repr

namespace NestedType

/-- The structure, but for the pointer and the `mac`. -/
def Fields : NestedType → Type
  | appendReq => AppendReq
  | logRsp => LogRsp

/-- The array the structure points to; `entries_n` is its length. -/
def entries : (T : NestedType) → T.Fields → List Entry
  | appendReq => AppendReq.entries
  | logRsp => LogRsp.entries

/-- The structure up to its `mac`, with the pointer. `src/enclave/msg.h:52–62,121–129`. -/
def bytes : (T : NestedType) → T.Fields → UInt64 → List UInt8
  | appendReq, (req : AppendReq), pointer => req.target.bytes ++ req.source.bytes ++
      littleEndian 4 req.term ++ littleEndian 4 req.prevTerm ++ littleEndian 4 req.prevIndex ++
      littleEndian 4 req.commitIndex ++ littleEndian 8 pointer.toNat ++
      littleEndian 4 req.entries.length
  | logRsp, (rsp : LogRsp), pointer => rsp.target.bytes ++ rsp.source.bytes ++
      boolByte rsp.success ++ rsp.leader.bytes ++ littleEndian 8 pointer.toNat ++
      littleEndian 4 rsp.entries.length

/-- The numbers fit their fields, and the size of the array in bytes its parameter. -/
def Fits : (T : NestedType) → T.Fields → Prop
  | appendReq, (req : AppendReq) => req.term < 2 ^ 32 ∧ req.prevTerm < 2 ^ 32 ∧
      req.prevIndex < 2 ^ 32 ∧ req.commitIndex < 2 ^ 32 ∧ 60 * req.entries.length < 2 ^ 32 ∧
      ∀ e ∈ req.entries, e.Fits
  | logRsp, (rsp : LogRsp) => 60 * rsp.entries.length < 2 ^ 32 ∧ ∀ e ∈ rsp.entries, e.Fits

instance (T : NestedType) (fields : T.Fields) : Decidable (T.Fits fields) :=
  match T with
  | appendReq | logRsp => inferInstanceAs (Decidable (_ ∧ _))

end NestedType

/-- A structure with the address of its entries and its `mac`. -/
structure NestedMsg (T : NestedType) where
  fields : T.Fields
  pointer : UInt64
  mac : CmacTag

section
variable (cmac : List UInt8 → CmacTag) {T : NestedType}

/-- `sgx_rijndael128_cmac_msg` under the key of the enclaves; the length it is passed has 32
bits. -/
def cmacMsg (src : List UInt8) : CmacTag := cmac (src.take (src.length % 2 ^ 32))

/-- `get_mac_append_req` and `get_mac_log_rsp`: whether it succeeds, and the tag; the copy's
`entries` is a null pointer. `src/enclave/crypto.cpp:12–33,53–72`. -/
def getMacNestedMsg (unset : Unset) (msg : NestedMsg T) : Bool × CmacTag :=
  let cpy := T.bytes msg.fields 0
  let (success, tag) := getMacList (cmacMsg cmac) unset ((T.entries msg.fields).map Entry.bytes)
  if success then getMacList (cmacMsg cmac) unset [(cmacMsg cmac cpy).bytes, tag.bytes]
  else (false, unset.tag)

/-- `set_mac_append_req` and `set_mac_log_rsp`. `src/enclave/crypto.cpp:35–41,76–82`. -/
def setMacNestedMsg (unset : Unset) (msg : NestedMsg T) : Bool × NestedMsg T :=
  let (ret, tag) := getMacNestedMsg cmac unset msg
  (ret, { msg with mac := tag })

/-- `validate_append_req` and `validate_log_rsp`, with `cmp_macs`: the status, and `valid`.
`src/enclave/crypto.cpp:43–48,84–89`. -/
def validateNestedMsg (unset : Unset) (msg : NestedMsg T) : Bool × Bool :=
  let (ret, tag) := getMacNestedMsg cmac unset msg
  (ret, msg.mac = tag)

/-- The tag that each type's function computes; the address of the entries is not part of it. -/
def Message.getMac (unset : Unset) : Message → CmacTag
  | .commandReq req => cmacMsg cmac req.bytes
  | .commandRsp rsp => cmacMsg cmac rsp.bytes
  | .appendReq req => (getMacNestedMsg (T := .appendReq) cmac unset ⟨req, 0, zeroTag⟩).2
  | .appendRsp rsp => cmacMsg cmac rsp.bytes
  | .pollReq req => cmacMsg cmac req.bytes
  | .pollRsp rsp => cmacMsg cmac rsp.bytes
  | .electionReq req => cmacMsg cmac req.bytes
  | .electionRsp rsp => cmacMsg cmac rsp.bytes
  | .logReq req => cmacMsg cmac req.bytes
  | .logRsp rsp => (getMacNestedMsg (T := .logRsp) cmac unset ⟨rsp, 0, zeroTag⟩).2

/-- `validate_flat_msg`, `validate_append_req` and `validate_log_rsp`, each at its types.
`src/enclave/crypto.h:37–43`, `src/enclave/crypto.cpp:43–49,84–90`. -/
def Message.validate (unset : Unset) (msg : Message) (mac : CmacTag) : Bool :=
  mac = msg.getMac cmac unset

/-- The array a message points to, if it has one. -/
def Message.array : Message → Option (List Entry)
  | .appendReq req => some req.entries
  | .logRsp rsp => some rsp.entries
  | _ => none

/-- The strings that are hashed on the way: the copy, the entries if there are any, and the two
tags. -/
def hashed (unset : Unset) (msg : NestedMsg T) : List (List UInt8) :=
  let cpy := T.bytes msg.fields 0
  let list := (T.entries msg.fields).map Entry.bytes
  [cpy, (cmacMsg cmac cpy).bytes ++ (getMacList (cmacMsg cmac) unset list).2.bytes] ++
    if list.length > 0 then [list.flatten] else []

end

section
variable {cmac : List UInt8 → CmacTag} {T : NestedType} {unset unset' : Unset}
  {m m' : NestedMsg T}

/-- A tag is determined by its bytes. -/
theorem CmacTag.eq_of_bytes {s t : CmacTag} (h : s.bytes = t.bytes) : s = t := by
  cases s
  cases t
  simpa using h

/-- A length of 32 bits is the length. -/
theorem cmacMsg_of_lt {src : List UInt8} (h : src.length < 2 ^ 32) :
    cmacMsg cmac src = cmac src := by
  unfold cmacMsg
  rw [Nat.mod_eq_of_lt h, List.take_length]

/-- A tag that is computed is the code of the two tags. -/
theorem tag_of_getMacNestedMsg {tag : CmacTag}
    (computed : getMacNestedMsg cmac unset m = (true, tag)) :
    tag = cmacMsg cmac ((cmacMsg cmac (T.bytes m.fields 0)).bytes ++
      (getMacList (cmacMsg cmac) unset ((T.entries m.fields).map Entry.bytes)).2.bytes) := by
  unfold getMacNestedMsg at computed
  dsimp only at computed
  split at computed
  · have htag : _ = tag := congrArg Prod.snd computed
    rw [← htag]
    simp [getMacList]
  · exact absurd (congrArg Prod.fst computed) (by simp)

/-- Where the status is no failure, the tag is computed from what is set. -/
theorem getMacNestedMsg_of_success (success : unset.success = true) :
    getMacNestedMsg cmac unset m = (true, cmacMsg cmac ((cmacMsg cmac (T.bytes m.fields 0)).bytes ++
      (getMacList (cmacMsg cmac) ⟨true, zeroTag⟩
        ((T.entries m.fields).map Entry.bytes)).2.bytes)) := by
  unfold getMacNestedMsg getMacList
  rw [success]
  by_cases empty : T.entries m.fields = [] <;> simp [empty, List.length_pos_iff]

/-- Equal copies of requests are of equal fields, but for the entries, of which there are as
many. -/
theorem appendReq_of_bytes {req req' : AppendReq} (fits : NestedType.appendReq.Fits req)
    (fits' : NestedType.appendReq.Fits req')
    (h : NestedType.appendReq.bytes req 0 = NestedType.appendReq.bytes req' 0) :
    req.entries.length = req'.entries.length ∧
      (req.entries = req'.entries → req = req') := by
  obtain ⟨term, prevTerm, prevIndex, commitIndex, length, -⟩ := fits
  obtain ⟨term', prevTerm', prevIndex', commitIndex', length', -⟩ := fits'
  have h := congrArg (· ++ []) h
  simp only [NestedType.bytes, List.append_assoc] at h
  obtain ⟨h1, h⟩ := splits_uid trivial trivial h
  obtain ⟨h2, h⟩ := splits_uid trivial trivial h
  obtain ⟨h3, h⟩ := splits_littleEndian 4 term term' h
  obtain ⟨h4, h⟩ := splits_littleEndian 4 prevTerm prevTerm' h
  obtain ⟨h5, h⟩ := splits_littleEndian 4 prevIndex prevIndex' h
  obtain ⟨h6, h⟩ := splits_littleEndian 4 commitIndex commitIndex' h
  obtain ⟨-, h⟩ := splits_littleEndian 8 (by decide) (by decide) h
  obtain ⟨h7, -⟩ := splits_littleEndian 4 (by omega) (by omega) h
  refine ⟨h7, fun h8 ↦ ?_⟩
  cases req
  cases req'
  simp_all

/-- The same for responses. -/
theorem logRsp_of_bytes {rsp rsp' : LogRsp} (fits : NestedType.logRsp.Fits rsp)
    (fits' : NestedType.logRsp.Fits rsp')
    (h : NestedType.logRsp.bytes rsp 0 = NestedType.logRsp.bytes rsp' 0) :
    rsp.entries.length = rsp'.entries.length ∧
      (rsp.entries = rsp'.entries → rsp = rsp') := by
  obtain ⟨length, -⟩ := fits
  obtain ⟨length', -⟩ := fits'
  have h := congrArg (· ++ []) h
  simp only [NestedType.bytes, List.append_assoc] at h
  obtain ⟨h1, h⟩ := splits_uid trivial trivial h
  obtain ⟨h2, h⟩ := splits_uid trivial trivial h
  obtain ⟨h3, h⟩ := splits_boolByte trivial trivial h
  obtain ⟨h4, h⟩ := splits_uid trivial trivial h
  obtain ⟨-, h⟩ := splits_littleEndian 8 (by decide) (by decide) h
  obtain ⟨h5, -⟩ := splits_littleEndian 4 (by omega) (by omega) h
  refine ⟨h5, fun h6 ↦ ?_⟩
  cases rsp
  cases rsp'
  simp_all

/-- The same for either. -/
theorem fields_of_bytes (fits : T.Fits m.fields) (fits' : T.Fits m'.fields)
    (h : T.bytes m.fields 0 = T.bytes m'.fields 0) :
    (T.entries m.fields).length = (T.entries m'.fields).length ∧
      (T.entries m.fields = T.entries m'.fields → m.fields = m'.fields) := by
  cases T with
  | appendReq => exact appendReq_of_bytes fits fits' h
  | logRsp => exact logRsp_of_bytes fits fits' h

/-- What fits its fields has a list shorter than 2^32 bytes, of entries that fit theirs. -/
theorem NestedType.Fits.entries {fields : T.Fields} (fits : T.Fits fields) :
    60 * (T.entries fields).length < 2 ^ 32 ∧ ∀ e ∈ T.entries fields, e.Fits := by
  cases T with
  | appendReq => exact fits.2.2.2.2
  | logRsp => exact fits

/-- No nested message hashes a string of 2^32 bytes. -/
theorem NestedType.length_bytes_lt (T : NestedType) (fields : T.Fields) (pointer : UInt64) :
    (T.bytes fields pointer).length < 2 ^ 32 := by
  cases T with
  | appendReq => simp [NestedType.bytes]
  | logRsp => simp [NestedType.bytes]

/-- The code of entries is that of their bytes. -/
theorem getMacList_entries {fields : T.Fields} (fits : T.Fits fields)
    (nonempty : T.entries fields ≠ []) :
    (getMacList (cmacMsg cmac) unset ((T.entries fields).map Entry.bytes)).2 =
      cmac ((T.entries fields).map Entry.bytes).flatten := by
  have length : ((T.entries fields).map Entry.bytes).flatten.length =
      60 * (T.entries fields).length := by
    simp [List.length_flatten, Function.comp_def, Nat.mul_comm]
  have pos := List.length_pos_of_ne_nil nonempty
  unfold getMacList
  rw [if_pos (by simpa using pos)]
  exact cmacMsg_of_lt (by rw [length]; exact fits.entries.1)

/-- Equal codes are computed for equal fields and equal entries only, where no two of the strings
hashed for them share a code; the address of the entries does not matter.
`src/enclave/crypto.cpp:11–33,52–72`. -/
theorem fields_eq_of_getMacNestedMsg_eq {tag : CmacTag} (fits : T.Fits m.fields)
    (fits' : T.Fits m'.fields)
    (inj : Set.InjOn cmac {src | src ∈ hashed cmac unset m ∨ src ∈ hashed cmac unset' m'})
    (computed : getMacNestedMsg cmac unset m = (true, tag))
    (computed' : getMacNestedMsg cmac unset' m' = (true, tag)) :
    m.fields = m'.fields ∧ ∀ pointer,
      getMacNestedMsg cmac unset { m with pointer := pointer } = getMacNestedMsg cmac unset m := by
  refine ⟨?_, fun pointer ↦ rfl⟩
  have hlength {s t : CmacTag} : (s.bytes ++ t.bytes).length < 2 ^ 32 := by
    rw [List.length_append, s.length, t.length]
    decide
  have htag := (tag_of_getMacNestedMsg computed).symm.trans (tag_of_getMacNestedMsg computed')
  rw [cmacMsg_of_lt hlength, cmacMsg_of_lt hlength] at htag
  have hpair := inj (Or.inl (by simp [hashed])) (Or.inr (by simp [hashed])) htag
  obtain ⟨hcpy, hlist⟩ := List.append_inj hpair (by rw [CmacTag.length, CmacTag.length])
  have hcpy := CmacTag.eq_of_bytes hcpy
  have hlist := CmacTag.eq_of_bytes hlist
  rw [cmacMsg_of_lt (T.length_bytes_lt _ _), cmacMsg_of_lt (T.length_bytes_lt _ _)] at hcpy
  have hbytes := inj (Or.inl (by simp [hashed])) (Or.inr (by simp [hashed])) hcpy
  obtain ⟨length, fields⟩ := fields_of_bytes fits fits' hbytes
  apply fields
  by_cases empty : T.entries m.fields = []
  · rw [empty] at length ⊢
    exact (List.eq_nil_of_length_eq_zero length.symm).symm
  · have empty' : T.entries m'.fields ≠ [] := by
      intro h
      rw [h] at length
      exact empty (List.eq_nil_of_length_eq_zero length)
    -- as neither list is empty, both codes are codes of the entries
    rw [getMacList_entries fits empty, getMacList_entries fits' empty'] at hlist
    have pos := List.length_pos_of_ne_nil empty
    have pos' := List.length_pos_of_ne_nil empty'
    have hflat := inj (Or.inl (by simp [hashed, pos])) (Or.inr (by simp [hashed, pos'])) hlist
    have hflat := congrArg (· ++ []) hflat
    exact (splits_entry.flatten fits.entries.2 fits'.entries.2 length hflat).1

/-- A request with two entries, where the code is the length of what is hashed. -/
theorem append_fields_eq :
    let cmac : List UInt8 → CmacTag := fun src ↦ ⟨littleEndian 16 src.length, by simp⟩
    let entry : Entry := ⟨1, 1, ⟨0, 1⟩, ⟨0, 11⟩, ⟨⟨0, 101⟩, .exec⟩⟩
    let req : AppendReq := ⟨⟨0, 12⟩, ⟨0, 11⟩, 1, 0, 0, 0, [entry, { entry with index := 2 }]⟩
    let m : NestedMsg .appendReq := ⟨req, 4096, zeroTag⟩
    let m' : NestedMsg .appendReq := ⟨req, 8192, zeroTag⟩
    m.fields = m'.fields ∧ ∀ pointer, getMacNestedMsg cmac ⟨true, zeroTag⟩
      { m with pointer := pointer } = getMacNestedMsg cmac ⟨true, zeroTag⟩ m := by
  intro cmac entry req m m'
  have fits : NestedType.appendReq.Fits m.fields := by decide
  have apart : ∀ src ∈ hashed cmac ⟨true, zeroTag⟩ m, ∀ src' ∈ hashed cmac ⟨true, zeroTag⟩ m,
      cmac src = cmac src' → src = src' := by
    decide +kernel
  have inj : Set.InjOn cmac {src | src ∈ hashed cmac ⟨true, zeroTag⟩ m ∨
      src ∈ hashed cmac ⟨true, zeroTag⟩ m'} := by
    intro src hsrc src' hsrc' heq
    exact apart src (or_self_iff.mp hsrc) src' (or_self_iff.mp hsrc') heq
  have fits' : NestedType.appendReq.Fits m'.fields := fits
  exact fields_eq_of_getMacNestedMsg_eq fits fits' inj rfl rfl

/-! ### Codes that are set -/

/-- With entries the status is that of the codes, and nothing uninitialised is read. -/
theorem getMacNestedMsg_of_nonempty (nonempty : T.entries m.fields ≠ []) :
    getMacNestedMsg cmac unset m = (true, cmacMsg cmac ((cmacMsg cmac (T.bytes m.fields 0)).bytes ++
      (cmacMsg cmac ((T.entries m.fields).map Entry.bytes).flatten).bytes)) := by
  have pos := List.length_pos_of_ne_nil nonempty
  unfold getMacNestedMsg getMacList
  simp [pos]

/-- A code that is set is accepted, from any address of the entries and whatever the uninitialised
variables of the two calls hold, exactly when there are entries.
`src/enclave/crypto.h:10–18`, `src/enclave/crypto.cpp:11–90`. -/
theorem validateNestedMsg_setMacNestedMsg_iff (cmac : List UInt8 → CmacTag) (m : NestedMsg T) :
    (∀ unset unset' pointer,
      (setMacNestedMsg cmac unset m).1 = true ∧ validateNestedMsg cmac unset'
        { (setMacNestedMsg cmac unset m).2 with pointer := pointer } = (true, true)) ↔
    T.entries m.fields ≠ [] := by
  constructor
  · intro accepted empty
    obtain ⟨success, -⟩ := accepted ⟨false, zeroTag⟩ ⟨false, zeroTag⟩ 0
    unfold setMacNestedMsg getMacNestedMsg at success
    simp [empty, getMacList] at success
  · intro nonempty unset unset' pointer
    have code : getMacNestedMsg cmac unset m = _ := getMacNestedMsg_of_nonempty nonempty
    have again : getMacNestedMsg cmac unset'
        { (setMacNestedMsg cmac unset m).2 with pointer := pointer } = _ :=
      getMacNestedMsg_of_nonempty nonempty
    unfold validateNestedMsg
    rw [again]
    unfold setMacNestedMsg
    rw [code]
    exact ⟨rfl, congrArg (Prod.mk true) (decide_eq_true rfl)⟩

/-- A message that points to no empty array has one tag, whatever is unset. -/
theorem Message.getMac_of_filled {msg : Message} (filled : msg.array ≠ some []) :
    msg.getMac cmac unset = msg.getMac cmac unset' := by
  cases msg with
  | appendReq req =>
    have nonempty : req.entries ≠ [] := fun empty ↦ filled (congrArg some empty)
    have code (unset : Unset) :
        getMacNestedMsg (T := .appendReq) cmac unset ⟨req, 0, zeroTag⟩ = _ :=
      getMacNestedMsg_of_nonempty nonempty
    exact congrArg Prod.snd ((code unset).trans (code unset').symm)
  | logRsp rsp =>
    have nonempty : rsp.entries ≠ [] := fun empty ↦ filled (congrArg some empty)
    have code (unset : Unset) :
        getMacNestedMsg (T := .logRsp) cmac unset ⟨rsp, 0, zeroTag⟩ = _ :=
      getMacNestedMsg_of_nonempty nonempty
    exact congrArg Prod.snd ((code unset).trans (code unset').symm)
  | _ => rfl

/-- One that does has the tag that is unset, where the status is a failure. -/
theorem Message.getMac_of_empty {msg : Message} (empty : msg.array = some []) (tag : CmacTag) :
    msg.getMac cmac ⟨false, tag⟩ = tag := by
  cases msg with
  | appendReq req =>
    have none : req.entries = [] := Option.some.inj empty
    simp [getMac, getMacNestedMsg, NestedType.entries, none, getMacList]
  | logRsp rsp =>
    have none : rsp.entries = [] := Option.some.inj empty
    simp [getMac, getMacNestedMsg, NestedType.entries, none, getMacList]
  | _ => exact nomatch empty

/-- A heartbeat, for which the status happens to be a failure. -/
theorem not_validateNestedMsg_setMacNestedMsg : ¬ ∀ (cmac : List UInt8 → CmacTag)
    (T : NestedType) (m : NestedMsg T) (unset unset' : Unset) (pointer : UInt64),
    (setMacNestedMsg cmac unset m).1 = true ∧ validateNestedMsg cmac unset'
      { (setMacNestedMsg cmac unset m).2 with pointer := pointer } = (true, true) := by
  intro claim
  let heartbeat : AppendReq := ⟨⟨0, 12⟩, ⟨0, 11⟩, 1, 0, 0, 0, []⟩
  obtain ⟨success, -⟩ := claim (fun _ ↦ zeroTag) .appendReq ⟨heartbeat, 0, zeroTag⟩
    ⟨false, zeroTag⟩ ⟨false, zeroTag⟩ 0
  exact absurd success (by decide)

end

end TrustedDcr.Msg
