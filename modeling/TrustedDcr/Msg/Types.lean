import Mathlib.Algebra.Group.Nat.Defs
import TrustedDcr.Msg.Uid

/-!
# The messages between enclaves

The structures of `src/enclave/msg.h`. Terms and indices are naturals; a counted
entry array is a list. The `mac` field is not stored: whether a message validates
is an argument of the call that receives it.
-/

namespace TrustedDcr.Msg

/-- `command_type_t`. `src/enclave/msg.h:13–18`. -/
inductive CommandType where
  | lock
  | abort
  | exec
  | checkpoint
  deriving DecidableEq, Repr

/-- `command_tag_t`. `src/enclave/msg.h:20–23`. -/
structure CommandTag where
  uid : Uid
  type : CommandType
  deriving DecidableEq, Repr

/-- `tags_equal`. `src/enclave/msg_utils.cpp:9–11`. -/
def tagsEqual (lhs rhs : CommandTag) : Bool := uidsEqual lhs.uid rhs.uid && lhs.type == rhs.type

/-- Comparing both fields decides equality of tags. -/
@[simp] theorem tagsEqual_iff (lhs rhs : CommandTag) : tagsEqual lhs rhs = true ↔ lhs = rhs := by
  cases lhs
  cases rhs
  simp [tagsEqual]

/-- `command_req_t`. `src/enclave/msg.h:25–31`. -/
structure CommandReq where
  target : Uid
  source : Uid
  tag : CommandTag
  event : Uid
  deriving DecidableEq, Repr

/-- `command_rsp_t`. `src/enclave/msg.h:33–40`. -/
structure CommandRsp where
  target : Uid
  source : Uid
  tag : CommandTag
  success : Bool
  leader : Uid
  deriving DecidableEq, Repr

/-- `entry_t`, one log entry. `src/enclave/msg.h:44–50`. -/
structure Entry where
  index : Nat
  term : Nat
  event : Uid
  source : Uid
  tag : CommandTag
  deriving DecidableEq, Repr

/-- `get_empty_entry`, the placeholder at position 0. `src/enclave/msg_utils.cpp:31–40`. -/
def getEmptyEntry : Entry := ⟨0, 0, emptyUid, emptyUid, ⟨emptyUid, .checkpoint⟩⟩

/-- `append_req_t`; `entries_n` is the length of `entries`. `src/enclave/msg.h:52–62`. -/
structure AppendReq where
  target : Uid
  source : Uid
  term : Nat
  prevTerm : Nat
  prevIndex : Nat
  commitIndex : Nat
  entries : List Entry
  deriving DecidableEq, Repr

/-- `append_rsp_t`. `src/enclave/msg.h:64–73`. -/
structure AppendRsp where
  target : Uid
  source : Uid
  term : Nat
  prevTerm : Nat
  prevIndex : Nat
  success : Bool
  lastIndex : Nat
  deriving DecidableEq, Repr

/-- `poll_req_t`. `src/enclave/msg.h:77–84`. -/
structure PollReq where
  target : Uid
  source : Uid
  term : Nat
  lastTerm : Nat
  lastIndex : Nat
  deriving DecidableEq, Repr

/-- `poll_rsp_t`. `src/enclave/msg.h:86–92`. -/
structure PollRsp where
  target : Uid
  source : Uid
  term : Nat
  success : Bool
  deriving DecidableEq, Repr

/-- `election_req_t`. `src/enclave/msg.h:96–103`. -/
structure ElectionReq where
  target : Uid
  source : Uid
  term : Nat
  lastTerm : Nat
  lastIndex : Nat
  deriving DecidableEq, Repr

/-- `election_rsp_t`. `src/enclave/msg.h:105–111`. -/
structure ElectionRsp where
  target : Uid
  source : Uid
  term : Nat
  success : Bool
  deriving DecidableEq, Repr

/-- `log_req_t`. `src/enclave/msg.h:115–119`. -/
structure LogReq where
  target : Uid
  source : Uid
  deriving DecidableEq, Repr

/-- `log_rsp_t`; `entries_n` is the length of `entries`. `src/enclave/msg.h:121–129`. -/
structure LogRsp where
  target : Uid
  source : Uid
  success : Bool
  leader : Uid
  entries : List Entry
  deriving DecidableEq, Repr

/-- Any of the ten messages an enclave sends through its ocalls. -/
inductive Message where
  | commandReq (req : CommandReq)
  | commandRsp (rsp : CommandRsp)
  | appendReq (req : AppendReq)
  | appendRsp (rsp : AppendRsp)
  | pollReq (req : PollReq)
  | pollRsp (rsp : PollRsp)
  | electionReq (req : ElectionReq)
  | electionRsp (rsp : ElectionRsp)
  | logReq (req : LogReq)
  | logRsp (rsp : LogRsp)
  deriving DecidableEq, Repr

end TrustedDcr.Msg
