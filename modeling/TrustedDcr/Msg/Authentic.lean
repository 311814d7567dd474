import TrustedDcr.Msg.Nested

/-!
# What a code tells of its message

Ten kinds of messages are authenticated under one key, and nothing names the kind in
what is hashed. `src/enclave/crypto.h:10–43`, `src/enclave/crypto.cpp:11–90`. The
lengths keep them apart, but for polls and elections; and a request for a log has the
length of the two codes that a nested message is authenticated by.
-/

namespace TrustedDcr.Msg
open TrustedDcr.Theory

/-! ### Flat messages -/

namespace FlatType

/-- The message of a flat structure. -/
def message : (T : FlatType) → T.Fields → Message
  | commandReq => Message.commandReq
  | commandRsp => Message.commandRsp
  | appendRsp => Message.appendRsp
  | pollReq => Message.pollReq
  | pollRsp => Message.pollRsp
  | electionReq => Message.electionReq
  | electionRsp => Message.electionRsp
  | logReq => Message.logReq

/-- The numbers fit their fields. -/
def Fits : (T : FlatType) → T.Fields → Prop
  | commandReq, _ | commandRsp, _ | logReq, _ => True
  | appendRsp, (rsp : AppendRsp) => rsp.term < 2 ^ 32 ∧ rsp.prevTerm < 2 ^ 32 ∧
      rsp.prevIndex < 2 ^ 32 ∧ rsp.lastIndex < 2 ^ 32
  | pollReq, (req : PollReq) => req.term < 2 ^ 32 ∧ req.lastTerm < 2 ^ 32 ∧ req.lastIndex < 2 ^ 32
  | pollRsp, (rsp : PollRsp) => rsp.term < 2 ^ 32
  | electionReq, (req : ElectionReq) => req.term < 2 ^ 32 ∧ req.lastTerm < 2 ^ 32 ∧
      req.lastIndex < 2 ^ 32
  | electionRsp, (rsp : ElectionRsp) => rsp.term < 2 ^ 32

instance : (T : FlatType) → (fields : T.Fields) → Decidable (T.Fits fields)
  | commandReq, _ | commandRsp, _ | logReq, _ => inferInstanceAs (Decidable True)
  | appendRsp, _ | pollReq, _ | electionReq, _ => inferInstanceAs (Decidable (_ ∧ _))
  | pollRsp, _ | electionRsp, _ => inferInstanceAs (Decidable (_ < _))

/-- Words of 32 bits. -/
theorem splits_word : Splits (littleEndian 4) fun value ↦ value < 2 ^ 32 := splits_littleEndian 4

/-- The two identifiers every structure begins with. -/
theorem splits_header : Splits (fun x : Uid × Uid ↦ x.1.bytes ++ x.2.bytes)
    fun _ ↦ True ∧ True := Splits.prod splits_uid splits_uid

/-- The fields of a poll or an election are the same, and so are those of their answers. -/
theorem splits_query :
    Splits (fun x : (((Uid × Uid) × Nat) × Nat) × Nat ↦ x.1.1.1.1.bytes ++ x.1.1.1.2.bytes ++
      littleEndian 4 x.1.1.2 ++ littleEndian 4 x.1.2 ++ littleEndian 4 x.2)
    fun x ↦ (((True ∧ True) ∧ x.1.1.2 < 2 ^ 32) ∧ x.1.2 < 2 ^ 32) ∧ x.2 < 2 ^ 32 :=
  Splits.prod (Splits.prod (Splits.prod splits_header splits_word) splits_word) splits_word

private theorem splits_answer :
    Splits (fun x : ((Uid × Uid) × Nat) × Bool ↦ x.1.1.1.bytes ++ x.1.1.2.bytes ++
      littleEndian 4 x.1.2 ++ boolByte x.2) fun x ↦ ((True ∧ True) ∧ x.1.2 < 2 ^ 32) ∧ True :=
  Splits.prod (Splits.prod splits_header splits_word) splits_boolByte

/-- The fields can be read back from the bytes. -/
theorem splits_bytes (T : FlatType) : Splits T.bytes T.Fits := by
  cases T with
  | commandReq =>
    refine Splits.comap
      (h := fun req : CommandReq ↦ (((req.target, req.source), req.tag), req.event))
      (Splits.prod (Splits.prod splits_header splits_commandTag) splits_uid) ?_ (by simp)
    rintro ⟨⟩ ⟨⟩ heq
    simp_all
  | commandRsp =>
    refine Splits.comap
      (h := fun rsp : CommandRsp ↦ ((((rsp.target, rsp.source), rsp.tag), rsp.success), rsp.leader))
      (Splits.prod (Splits.prod (Splits.prod splits_header splits_commandTag) splits_boolByte)
        splits_uid) ?_ (by simp)
    rintro ⟨⟩ ⟨⟩ heq
    simp_all
  | appendRsp =>
    refine Splits.comap
      (h := fun rsp : AppendRsp ↦ ((((((rsp.target, rsp.source), rsp.term), rsp.prevTerm),
        rsp.prevIndex), rsp.success), rsp.lastIndex))
      (Splits.prod (Splits.prod splits_query splits_boolByte) splits_word) ?_ (by simp +contextual [Fits])
    rintro ⟨⟩ ⟨⟩ heq
    simp_all
  | pollReq =>
    refine Splits.comap
      (h := fun req : PollReq ↦ ((((req.target, req.source), req.term), req.lastTerm),
        req.lastIndex))
      splits_query ?_ (by simp +contextual [Fits])
    rintro ⟨⟩ ⟨⟩ heq
    simp_all
  | electionReq =>
    refine Splits.comap
      (h := fun req : ElectionReq ↦ ((((req.target, req.source), req.term), req.lastTerm),
        req.lastIndex))
      splits_query ?_ (by simp +contextual [Fits])
    rintro ⟨⟩ ⟨⟩ heq
    simp_all
  | pollRsp =>
    refine Splits.comap
      (h := fun rsp : PollRsp ↦ (((rsp.target, rsp.source), rsp.term), rsp.success))
      splits_answer ?_ (by simp +contextual [Fits])
    rintro ⟨⟩ ⟨⟩ heq
    simp_all
  | electionRsp =>
    refine Splits.comap
      (h := fun rsp : ElectionRsp ↦ (((rsp.target, rsp.source), rsp.term), rsp.success))
      splits_answer ?_ (by simp +contextual [Fits])
    rintro ⟨⟩ ⟨⟩ heq
    simp_all
  | logReq =>
    refine Splits.comap (h := fun req : LogReq ↦ (req.target, req.source)) splits_header ?_ (by simp)
    rintro ⟨⟩ ⟨⟩ heq
    simp_all

end FlatType

/-! ### Every message -/

/-- The message of a nested structure. -/
def NestedType.message : (T : NestedType) → T.Fields → Message
  | appendReq => Message.appendReq
  | logRsp => Message.logRsp

namespace Message

/-- The numbers fit their fields. -/
def Fits : Message → Prop
  | commandReq req => FlatType.commandReq.Fits req
  | commandRsp rsp => FlatType.commandRsp.Fits rsp
  | appendReq req => NestedType.appendReq.Fits req
  | appendRsp rsp => FlatType.appendRsp.Fits rsp
  | pollReq req => FlatType.pollReq.Fits req
  | pollRsp rsp => FlatType.pollRsp.Fits rsp
  | electionReq req => FlatType.electionReq.Fits req
  | electionRsp rsp => FlatType.electionRsp.Fits rsp
  | logReq req => FlatType.logReq.Fits req
  | logRsp rsp => NestedType.logRsp.Fits rsp

instance : DecidablePred Fits
  | appendReq req => (inferInstance : DecidablePred (NestedType.Fits .appendReq)) req
  | logRsp rsp => (inferInstance : DecidablePred (NestedType.Fits .logRsp)) rsp
  | commandReq req => (inferInstance : DecidablePred (FlatType.Fits .commandReq)) req
  | commandRsp rsp => (inferInstance : DecidablePred (FlatType.Fits .commandRsp)) rsp
  | appendRsp rsp => (inferInstance : DecidablePred (FlatType.Fits .appendRsp)) rsp
  | pollReq req => (inferInstance : DecidablePred (FlatType.Fits .pollReq)) req
  | pollRsp rsp => (inferInstance : DecidablePred (FlatType.Fits .pollRsp)) rsp
  | electionReq req => (inferInstance : DecidablePred (FlatType.Fits .electionReq)) req
  | electionRsp rsp => (inferInstance : DecidablePred (FlatType.Fits .electionRsp)) rsp
  | logReq req => (inferInstance : DecidablePred (FlatType.Fits .logReq)) req

/-- The other message that the code of a poll or an election is for. -/
def retyped : Message → Option Message
  | pollReq ⟨target, source, term, lastTerm, lastIndex⟩ =>
    some (electionReq ⟨target, source, term, lastTerm, lastIndex⟩)
  | electionReq ⟨target, source, term, lastTerm, lastIndex⟩ =>
    some (pollReq ⟨target, source, term, lastTerm, lastIndex⟩)
  | pollRsp ⟨target, source, term, success⟩ => some (electionRsp ⟨target, source, term, success⟩)
  | electionRsp ⟨target, source, term, success⟩ => some (pollRsp ⟨target, source, term, success⟩)
  | _ => none

section
variable (cmac : List UInt8 → CmacTag)

/-- The code a message is sent under: whatever sets it is called again until it succeeds.
`src/enclave/enclave.cpp:59–113`. -/
def tag (msg : Message) : CmacTag := msg.getMac cmac ⟨true, zeroTag⟩

/-- The strings that are hashed on the way to the code. -/
def hashed : Message → List (List UInt8)
  | commandReq req => [req.bytes]
  | commandRsp rsp => [rsp.bytes]
  | appendReq req => Msg.hashed (T := .appendReq) cmac ⟨true, zeroTag⟩ ⟨req, 0, zeroTag⟩
  | appendRsp rsp => [rsp.bytes]
  | pollReq req => [req.bytes]
  | pollRsp rsp => [rsp.bytes]
  | electionReq req => [req.bytes]
  | electionRsp rsp => [rsp.bytes]
  | logReq req => [req.bytes]
  | logRsp rsp => Msg.hashed (T := .logRsp) cmac ⟨true, zeroTag⟩ ⟨rsp, 0, zeroTag⟩

end

/-- A message is flat or nested. -/
theorem flat_or_nested (msg : Message) : (∃ T fields, msg = FlatType.message T fields) ∨
    ∃ T fields, msg = NestedType.message T fields := by
  cases msg with
  | commandReq req => exact Or.inl ⟨.commandReq, req, rfl⟩
  | commandRsp rsp => exact Or.inl ⟨.commandRsp, rsp, rfl⟩
  | appendReq req => exact Or.inr ⟨.appendReq, req, rfl⟩
  | appendRsp rsp => exact Or.inl ⟨.appendRsp, rsp, rfl⟩
  | pollReq req => exact Or.inl ⟨.pollReq, req, rfl⟩
  | pollRsp rsp => exact Or.inl ⟨.pollRsp, rsp, rfl⟩
  | electionReq req => exact Or.inl ⟨.electionReq, req, rfl⟩
  | electionRsp rsp => exact Or.inl ⟨.electionRsp, rsp, rfl⟩
  | logReq req => exact Or.inl ⟨.logReq, req, rfl⟩
  | logRsp rsp => exact Or.inr ⟨.logRsp, rsp, rfl⟩

end Message

section
variable {cmac : List UInt8 → CmacTag}

private theorem FlatType.hashed_message (T : FlatType) (fields : T.Fields) :
    (T.message fields).hashed cmac = [T.bytes fields] := by
  cases T <;> rfl

private theorem FlatType.fits_message {T : FlatType} {fields : T.Fields} :
    (T.message fields).Fits ↔ T.Fits fields := by
  cases T <;> rfl

private theorem NestedType.fits_message {T : NestedType} {fields : T.Fields} :
    (T.message fields).Fits ↔ T.Fits fields := by
  cases T <;> rfl

/-- The code of a flat message is that of its bytes. -/
theorem FlatType.tag_message (T : FlatType) (fields : T.Fields) :
    (T.message fields).tag cmac = cmac (T.bytes fields) := by
  have short : (T.bytes fields).length < 2 ^ 32 := by
    rw [T.length_bytes]
    cases T <;> decide
  have plain : cmacMsg cmac (T.bytes fields) = _ := cmacMsg_of_lt short
  rw [← plain]
  cases T <;> rfl

/-- The two codes that the code of a nested message is of. -/
def NestedType.pair (cmac : List UInt8 → CmacTag) (T : NestedType) (fields : T.Fields) :
    List UInt8 :=
  (cmacMsg cmac (T.bytes fields 0)).bytes ++
    (getMacList (cmacMsg cmac) ⟨true, zeroTag⟩ ((T.entries fields).map Entry.bytes)).2.bytes

private theorem NestedType.length_pair (T : NestedType) (fields : T.Fields) :
    (T.pair cmac fields).length = 32 := by
  unfold pair
  rw [List.length_append, CmacTag.length, CmacTag.length]

private theorem NestedType.tag_message (T : NestedType) (fields : T.Fields) :
    (T.message fields).tag cmac = cmac (T.pair cmac fields) := by
  have short : (T.pair cmac fields).length < 2 ^ 32 := by
    rw [T.length_pair]
    decide
  have plain : cmacMsg cmac (T.pair cmac fields) = _ := cmacMsg_of_lt short
  have nested : (T.message fields).tag cmac =
      (getMacNestedMsg cmac ⟨true, zeroTag⟩ ⟨fields, 0, zeroTag⟩).2 := by
    cases T <;> rfl
  rw [nested, ← plain, getMacNestedMsg_of_success rfl]
  rfl

private theorem NestedType.mem_hashed_message {T : NestedType} {fields : T.Fields}
    {src : List UInt8} :
    src ∈ (T.message fields).hashed cmac ↔ src = T.bytes fields 0 ∨ src = T.pair cmac fields ∨
      T.entries fields ≠ [] ∧ src = ((T.entries fields).map Entry.bytes).flatten := by
  have strings : (T.message fields).hashed cmac =
      Msg.hashed cmac ⟨true, zeroTag⟩ ⟨fields, 0, zeroTag⟩ := by
    cases T <;> rfl
  rw [strings]
  unfold Msg.hashed
  by_cases empty : T.entries fields = []
  · simp [empty, pair]
  · simp [empty, pair, List.length_pos_iff]

/-- The code of a message is that of a string hashed for it. -/
theorem Message.exists_hashed_tag (msg : Message) :
    ∃ src ∈ msg.hashed cmac, msg.tag cmac = cmac src := by
  rcases msg.flat_or_nested with ⟨T, fields, rfl⟩ | ⟨T, fields, rfl⟩
  · exact ⟨_, by simp [T.hashed_message], T.tag_message fields⟩
  · exact ⟨_, NestedType.mem_hashed_message.mpr (Or.inr (Or.inl rfl)), T.tag_message fields⟩

/-- The length of a copy. -/
def NestedType.size : NestedType → Nat
  | appendReq => 60
  | logRsp => 61

private theorem NestedType.length_bytes (T : NestedType) (fields : T.Fields) (pointer : UInt64) :
    (T.bytes fields pointer).length = T.size := by
  cases T with
  | appendReq => simp [bytes, size]
  | logRsp => simp [bytes, size]

/-- Nothing that is hashed inside a nested message is as long as what a message's code is of. -/
theorem NestedType.length_inner_ne {T : NestedType} {fields : T.Fields} {src : List UInt8}
    (inner : src = T.bytes fields 0 ∨
      T.entries fields ≠ [] ∧ src = ((T.entries fields).map Entry.bytes).flatten) :
    src.length ≠ 32 ∧ ∀ U : FlatType, src.length ≠ U.size := by
  have length : src.length = T.size ∨ 60 ∣ src.length ∧ 0 < src.length := by
    rcases inner with rfl | ⟨nonempty, rfl⟩
    · exact Or.inl (T.length_bytes fields 0)
    · have pos := List.length_pos_of_ne_nil nonempty
      have flat : ((T.entries fields).map Entry.bytes).flatten.length =
          60 * (T.entries fields).length := by
        simp [List.length_flatten, Function.comp_def, Nat.mul_comm]
      exact Or.inr ⟨⟨_, flat⟩, by omega⟩
  constructor
  · cases T <;> simp only [size] at length <;> omega
  · intro U
    cases T <;> cases U <;> simp only [size, FlatType.size] at length ⊢ <;> omega

/-- The twin of a flat message has its bytes. -/
theorem FlatType.exists_retyped {T U : FlatType} (twins : T.twin = some U) {fields : T.Fields}
    (fits : T.Fits fields) : ∃ twin : U.Fields,
      (T.message fields).retyped = some (U.message twin) ∧ U.bytes twin = T.bytes fields ∧
        U.Fits twin := by
  cases T with
  | pollReq =>
    obtain rfl : electionReq = U := Option.some.inj twins
    obtain ⟨target, source, term, lastTerm, lastIndex⟩ : PollReq := fields
    exact ⟨ElectionReq.mk target source term lastTerm lastIndex, rfl, rfl, fits⟩
  | electionReq =>
    obtain rfl : pollReq = U := Option.some.inj twins
    obtain ⟨target, source, term, lastTerm, lastIndex⟩ : ElectionReq := fields
    exact ⟨PollReq.mk target source term lastTerm lastIndex, rfl, rfl, fits⟩
  | pollRsp =>
    obtain rfl : electionRsp = U := Option.some.inj twins
    obtain ⟨target, source, term, success⟩ : PollRsp := fields
    exact ⟨ElectionRsp.mk target source term success, rfl, rfl, fits⟩
  | electionRsp =>
    obtain rfl : pollRsp = U := Option.some.inj twins
    obtain ⟨target, source, term, success⟩ : ElectionRsp := fields
    exact ⟨PollRsp.mk target source term success, rfl, rfl, fits⟩
  | commandReq | commandRsp | appendRsp | logReq => exact nomatch twins

/-- Flat messages of the same bytes. -/
theorem FlatType.eq_or_retyped {T U : FlatType} {fields : T.Fields} {fields' : U.Fields}
    (fits : T.Fits fields) (fits' : U.Fits fields') (h : U.bytes fields' = T.bytes fields) :
    U.message fields' = T.message fields ∨
      (T.message fields).retyped = some (U.message fields') := by
  by_cases same : T = U
  · subst same
    exact Or.inl (congrArg _ (Splits.eq T.splits_bytes fits' fits h))
  · have twins : T.twin = some U := by
      by_contra apart
      refine size_ne same apart ?_
      rw [← T.length_bytes fields, ← U.length_bytes fields', h]
    obtain ⟨twin, retyped, bytes, fitsTwin⟩ := exists_retyped twins fits
    rw [Splits.eq U.splits_bytes fits' fitsTwin (h.trans bytes.symm)]
    exact Or.inr retyped

/-- Nested messages of the same two codes, where no two of the strings hashed for them share one. -/
theorem NestedType.eq_of_pair {T U : NestedType} {fields : T.Fields} {fields' : U.Fields}
    (fits : T.Fits fields) (fits' : U.Fits fields')
    (inj : Set.InjOn cmac {src | src ∈ (T.message fields).hashed cmac ∨
      src ∈ (U.message fields').hashed cmac})
    (h : U.pair cmac fields' = T.pair cmac fields) : U.message fields' = T.message fields := by
  obtain ⟨hcpy, hlist⟩ := List.append_inj h (by rw [CmacTag.length, CmacTag.length])
  have hcpy := CmacTag.eq_of_bytes hcpy
  have hlist := CmacTag.eq_of_bytes hlist
  rw [cmacMsg_of_lt (U.length_bytes_lt _ _), cmacMsg_of_lt (T.length_bytes_lt _ _)] at hcpy
  have hbytes : U.bytes fields' 0 = T.bytes fields 0 :=
    inj (Or.inr (mem_hashed_message.mpr (Or.inl rfl)))
      (Or.inl (mem_hashed_message.mpr (Or.inl rfl))) hcpy
  have same : U = T := by
    have size : U.size = T.size := by
      rw [← U.length_bytes fields' 0, ← T.length_bytes fields 0, hbytes]
    revert size
    cases U <;> cases T <;> decide
  subst same
  let m : NestedMsg U := ⟨fields, 0, zeroTag⟩
  obtain ⟨length, eq⟩ :=
    fields_of_bytes (m := ⟨fields', 0, zeroTag⟩) fits' (show U.Fits m.fields from fits) hbytes
  refine congrArg _ (eq ?_)
  by_cases empty : U.entries fields = []
  · rw [empty] at length ⊢
    exact List.eq_nil_of_length_eq_zero length
  · have empty' : U.entries fields' ≠ [] := by
      intro h
      rw [h] at length
      exact empty (List.eq_nil_of_length_eq_zero length.symm)
    rw [getMacList_entries fits' empty', getMacList_entries fits empty] at hlist
    have hflat := inj (Or.inr (mem_hashed_message.mpr (Or.inr (Or.inr ⟨empty', rfl⟩))))
      (Or.inl (mem_hashed_message.mpr (Or.inr (Or.inr ⟨empty, rfl⟩)))) hlist
    exact (splits_entry.flatten fits'.entries.2 fits.entries.2 length
      (congrArg (· ++ []) hflat)).1

/-- A flat message that is as long as two codes is a request for a log. -/
theorem FlatType.logReq_of_pair {T : FlatType} {fields : T.Fields} {U : NestedType}
    {fields' : U.Fields} (h : T.bytes fields = U.pair cmac fields') :
    ∃ req : LogReq, T.message fields = .logReq req ∧
      (cmac (U.bytes fields' 0)).bytes = req.target.bytes := by
  have size : T.size = 32 := by rw [← T.length_bytes fields, h, U.length_pair]
  cases T with
  | logReq =>
    obtain ⟨code, -⟩ := List.append_inj h (by simp [CmacTag.length])
    have plain : cmacMsg cmac (U.bytes fields' 0) = _ := cmacMsg_of_lt (U.length_bytes_lt _ _)
    exact ⟨fields, rfl, (congrArg CmacTag.bytes plain).symm.trans code.symm⟩
  | _ => exact absurd size (by decide)

/-- A message under a code that was computed for another is the other one, or its twin, where no
two of the strings hashed for them share a code and no code is the target of a request for a log.
`src/enclave/crypto.h:10–43`, `src/enclave/crypto.cpp:11–90`. -/
theorem Message.eq_or_retyped {m m' : Message} (fits : m.Fits) (fits' : m'.Fits)
    (inj : Set.InjOn cmac {src | src ∈ m.hashed cmac ∨ src ∈ m'.hashed cmac})
    (target : ∀ req, m = .logReq req → ∀ src ∈ m'.hashed cmac, (cmac src).bytes ≠ req.target.bytes)
    (target' : ∀ req, m' = .logReq req → ∀ src ∈ m.hashed cmac, (cmac src).bytes ≠ req.target.bytes)
    {src : List UInt8} (hsrc : src ∈ m.hashed cmac) (h : m'.tag cmac = cmac src) :
    m' = m ∨ m.retyped = some m' := by
  rcases m.flat_or_nested with ⟨T, fields, rfl⟩ | ⟨T, fields, rfl⟩ <;>
    rcases m'.flat_or_nested with ⟨U, fields', rfl⟩ | ⟨U, fields', rfl⟩
  · rw [T.hashed_message, List.mem_singleton] at hsrc
    rw [U.tag_message, hsrc] at h
    exact FlatType.eq_or_retyped (FlatType.fits_message.mp fits) (FlatType.fits_message.mp fits')
      (inj (Or.inr (by simp [U.hashed_message])) (Or.inl (by simp [T.hashed_message])) h)
  · rw [T.hashed_message, List.mem_singleton] at hsrc
    rw [U.tag_message, hsrc] at h
    have bytes := inj (Or.inr (NestedType.mem_hashed_message.mpr (Or.inr (Or.inl rfl))))
      (Or.inl (by simp [T.hashed_message])) h
    obtain ⟨req, hreq, code⟩ := FlatType.logReq_of_pair bytes.symm
    exact absurd code (target req hreq _ (NestedType.mem_hashed_message.mpr (Or.inl rfl)))
  · rw [U.tag_message] at h
    have bytes := inj (Or.inr (by simp [U.hashed_message])) (Or.inl hsrc) h
    rcases NestedType.mem_hashed_message.mp hsrc with cpy | pair | entries
    · exact absurd (bytes ▸ U.length_bytes fields')
        ((NestedType.length_inner_ne (Or.inl cpy)).2 U)
    · obtain ⟨req, hreq, code⟩ := FlatType.logReq_of_pair (bytes.trans pair)
      exact absurd code (target' req hreq _ (NestedType.mem_hashed_message.mpr (Or.inl rfl)))
    · exact absurd (bytes ▸ U.length_bytes fields')
        ((NestedType.length_inner_ne (Or.inr entries)).2 U)
  · rw [U.tag_message] at h
    have bytes := inj (Or.inr (NestedType.mem_hashed_message.mpr (Or.inr (Or.inl rfl))))
      (Or.inl hsrc) h
    rcases NestedType.mem_hashed_message.mp hsrc with cpy | pair | entries
    · exact absurd (bytes ▸ U.length_pair fields') (NestedType.length_inner_ne (Or.inl cpy)).1
    · exact Or.inl (NestedType.eq_of_pair (NestedType.fits_message.mp fits)
        (NestedType.fits_message.mp fits') inj (bytes.trans pair))
    · exact absurd (bytes ▸ U.length_pair fields') (NestedType.length_inner_ne (Or.inr entries)).1

/-- Where the status is no failure, a message is compared with the code it is sent under. -/
theorem Message.validate_iff {msg : Message} {unset : Unset} (success : unset.success = true)
    (mac : CmacTag) : msg.validate cmac unset mac = true ↔ mac = msg.tag cmac := by
  have same : msg.getMac cmac unset = msg.tag cmac := by
    obtain ⟨_, tag⟩ := unset
    obtain rfl := success
    have nested (T : NestedType) (m : NestedMsg T) :
        getMacNestedMsg cmac ⟨true, tag⟩ m = getMacNestedMsg cmac ⟨true, zeroTag⟩ m :=
      (getMacNestedMsg_of_success rfl).trans (getMacNestedMsg_of_success rfl).symm
    cases msg with
    | appendReq req => exact congrArg Prod.snd (nested .appendReq ⟨req, 0, zeroTag⟩)
    | logRsp rsp => exact congrArg Prod.snd (nested .logRsp ⟨rsp, 0, zeroTag⟩)
    | _ => rfl
  unfold Message.validate
  rw [same, decide_eq_true_iff]

end

end TrustedDcr.Msg
