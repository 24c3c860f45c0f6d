import Mathlib.Data.Nat.Init

/-! The tags of UCX that carry the tag, the source and the communicator of a message. -/

namespace EduMpi.Ucx

/-- `MPI_ANY_SOURCE`. -/
def anySource : Int := -1

/-- `MPI_ANY_TAG`. -/
def anyTag : Int := -1

/-- `PML_UCX_ANY_SOURCE_MASK`. -/
def anySourceMask : BitVec 64 := 0x80000000000fffff

/-- `PML_UCX_SPECIFIC_SOURCE_MASK`. -/
def specificSourceMask : BitVec 64 := 0x800000ffffffffff

/-- `PML_UCX_TAG_MASK`. -/
def tagMask : BitVec 64 := 0x7fffff0000000000

/-- `UCS_MASK(PML_UCX_RANK_BITS)`. -/
def rankMask : BitVec 64 := 0xfffff

/-- `PML_UCX_MAKE_SEND_TAG`, with the rank and the index of the communicator. -/
def makeSendTag (tag myRank index : Int) : BitVec 64 :=
  BitVec.ofInt 64 tag <<< 40 ||| BitVec.ofInt 64 myRank <<< 20 ||| BitVec.ofInt 64 index

/-- What a receive passes to UCX. -/
structure RecvTag where
  tag : BitVec 64
  mask : BitVec 64
  deriving DecidableEq, Repr

/-- `PML_UCX_MAKE_RECV_TAG`. -/
def makeRecvTag (tag src index : Int) : RecvTag :=
  let mask := if src = anySource then anySourceMask else specificSourceMask
  let word := (BitVec.ofInt 64 src &&& rankMask) <<< 20 ||| BitVec.ofInt 64 index
  if tag ≠ anyTag then ⟨word ||| BitVec.ofInt 64 tag <<< 40, mask ||| tagMask⟩ else ⟨word, mask⟩

/-- A message is taken if its tag agrees under the mask. -/
def RecvTag.Matches (recv : RecvTag) (sender : BitVec 64) : Prop :=
  sender &&& recv.mask = recv.tag &&& recv.mask

instance (recv : RecvTag) (sender : BitVec 64) : Decidable (recv.Matches sender) :=
  inferInstanceAs (Decidable (_ = _))

/-- The value as an `int`. -/
def toCInt (word : BitVec 64) : Int := (word.setWidth 32).toInt

/-- `PML_UCX_TAG_GET_SOURCE`, by the right shift of the word's type. -/
def tagGetSource (shift : BitVec 64 → Nat → BitVec 64) (tag : BitVec 64) : Int :=
  toCInt (shift tag 20 &&& rankMask)

/-- `PML_UCX_TAG_GET_MPI_TAG`, by the right shift of the word's type. -/
def tagGetMpiTag (shift : BitVec 64 → Nat → BitVec 64) (tag : BitVec 64) : Int :=
  toCInt (shift tag 40)

/-- The shift of an `int64_t`. -/
def shiftSigned (word : BitVec 64) (n : Nat) : BitVec 64 := word.sshiftRight n

/-- The shift of a `uint64_t`. -/
def shiftUnsigned (word : BitVec 64) (n : Nat) : BitVec 64 := word >>> n

/-- The codes of UCX that are told apart. -/
inductive UcsStatus where
  | ok | messageTruncated | canceled | other
  deriving DecidableEq, Repr

/-- The error codes of MPI that come out. -/
inductive MpiErr where
  | success | truncate | intern
  deriving DecidableEq, Repr

/-- `ompi_status_public_t`. -/
structure Status where
  source : Int
  tag : Int
  error : MpiErr
  ucount : Nat
  cancelled : Bool
  deriving DecidableEq, Repr

/-- `ucp_tag_recv_info_t`. -/
structure RecvInfo where
  senderTag : BitVec 64
  length : Nat
  deriving DecidableEq, Repr

/-- `mca_pml_ucx_set_recv_status`, which returns the error it stores. -/
def setRecvStatus (status : Status) (ucpStatus : UcsStatus) (info : RecvInfo) : Status :=
  let received (error : MpiErr) : Status :=
    { source := tagGetSource shiftSigned info.senderTag
      tag := tagGetMpiTag shiftSigned info.senderTag
      error := error
      ucount := info.length
      cancelled := false }
  match ucpStatus with
  | .ok => received .success
  | .messageTruncated => received .truncate
  | .canceled => { status with error := .success, cancelled := true }
  | .other => { status with error := .intern }

/-- `mca_pml_ucx_set_recv_status_public`, on a status that is not ignored, with the error it
returns. -/
def setRecvStatusPublic (status : Status) (ucpStatus : UcsStatus) (info : RecvInfo) :
    Status × MpiErr :=
  let received : Status :=
    { status with
      source := tagGetSource shiftUnsigned info.senderTag
      tag := tagGetMpiTag shiftUnsigned info.senderTag
      ucount := info.length
      cancelled := false }
  match ucpStatus with
  | .ok => (received, .success)
  | .messageTruncated => (received, .truncate)
  | .canceled => ({ status with cancelled := true }, .success)
  | .other => (status, .intern)

end EduMpi.Ucx
