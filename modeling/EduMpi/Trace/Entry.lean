import Mathlib.Tactic.Common

/-! The event entry, its lifecycle word, and the functions that reset and fill it. -/

namespace EduMpi

/-- A wall-clock or monotonic time stamp. -/
structure Timespec where
  tvSec : Int64
  tvNsec : Int64
deriving DecidableEq, Repr

/-- The bytes of a C string literal, without the terminating zero. -/
def cText (literal : String) : List UInt8 :=
  literal.toList.map fun c => UInt8.ofNat c.toNat

/-- The text held by a character array: everything in front of its first zero byte. -/
def textOf {n : Nat} (field : Vector UInt8 n) : List UInt8 :=
  field.toList.takeWhile (· ≠ 0)

/--
The first bytes of a character array replaced by those of a source.

The bytes behind the copied ones keep their value.
-/
def memcpy {n : Nat} (field : Vector UInt8 n) (source : List UInt8) (len : Nat) :
    Vector UInt8 n :=
  Vector.ofFn fun i => if i.val < len then source.getD i.val 0 else field.get i

/-- A formatted text printed into a character array, cut to its size and terminated. -/
def snprintf {n : Nat} (field : Vector UInt8 n) (text : List UInt8) : Vector UInt8 n :=
  let shown := text.take (n - 1)
  memcpy field (shown ++ [0]) (shown.length + 1)

/-- The communicators a call can carry, told apart by the tests the code makes on the handle. -/
inductive Comm where
  | null
  | commNull
  | world
  | other (name : List UInt8) (index : Int32) (inter : Bool) (size remoteSize : Nat)
      (peers : List (Option Int32))
deriving DecidableEq, Repr

/-- The datatypes whose name the code records, and all the others. -/
inductive Datatype where
  | int | char | double | long | other
deriving DecidableEq, Repr

/-- The reduction operations whose name the code records, and all the others. -/
inductive Op where
  | sum | max | min | prod | land | band | lor | bor | lxor | bxor | other
deriving DecidableEq, Repr

/-- One event on its way to the database. -/
structure QEntry where
  id : Int32
  function : Vector UInt8 30
  communicationType : Vector UInt8 30
  blocking : Int32
  sendDatatype : Vector UInt8 64
  recvDatatype : Vector UInt8 64
  sendcount : Int32
  sendDatasize : Int64
  recvcount : Int32
  recvDatasize : Int64
  operation : Vector UInt8 30
  communicationArea : Vector UInt8 64
  communicator : Comm
  processorname : Vector UInt8 30
  processrank : Int32
  partnerrank : Int32
  collPartnerranks : Vector UInt8 50
  immediate : Int32
  withinEagerLimit : Int32
  foundMatchWild : Int32
  usedAlgorithm : Vector UInt8 30
  startTime : Timespec
  endTime : Timespec
  lateSenderTime : Float
  lateReceiverTime : Float
  sendWaitingTime : Float
  recvWaitingTime : Float
  requestWaitCompletion : Timespec
  requestFini : Timespec
  pendingRequest : Int32
  requestDone : Int32
  lifecycle : Nat

/-- An entry whose memory is all zero bytes. -/
def QEntry.zero : QEntry where
  id := 0
  function := Vector.replicate 30 0
  communicationType := Vector.replicate 30 0
  blocking := 0
  sendDatatype := Vector.replicate 64 0
  recvDatatype := Vector.replicate 64 0
  sendcount := 0
  sendDatasize := 0
  recvcount := 0
  recvDatasize := 0
  operation := Vector.replicate 30 0
  communicationArea := Vector.replicate 64 0
  communicator := .null
  processorname := Vector.replicate 30 0
  processrank := 0
  partnerrank := 0
  collPartnerranks := Vector.replicate 50 0
  immediate := 0
  withinEagerLimit := 0
  foundMatchWild := 0
  usedAlgorithm := Vector.replicate 30 0
  startTime := ⟨0, 0⟩
  endTime := ⟨0, 0⟩
  lateSenderTime := 0
  lateReceiverTime := 0
  sendWaitingTime := 0
  recvWaitingTime := 0
  requestWaitCompletion := ⟨0, 0⟩
  requestFini := ⟨0, 0⟩
  pendingRequest := 0
  requestDone := 0
  lifecycle := 0

/-- What one process knows of itself while it records events. -/
structure Process where
  processrank : Int32
  procName : List UInt8
  worldSize : Nat

/-! The lifecycle word: a ticket and a state in one machine word. -/

/-- The four states of an entry's lifecycle. -/
inductive LcState where
  | none | pending | finishing | abandoned
deriving DecidableEq, Repr

/-- The two bits a lifecycle state occupies. -/
def LcState.code : LcState → Nat
  | .none => 0
  | .pending => 1
  | .finishing => 2
  | .abandoned => 3

/--
The lifecycle word of a ticket in a state.

The word has room for tickets below two to the sixty-second, more than a run can claim.
-/
def edumpiLc (ticket : Nat) (state : LcState) : Nat :=
  ticket <<< 2 ||| state.code

/-- The state held in the low two bits of a lifecycle word. -/
def lcState (word : Nat) : LcState :=
  match word &&& 3 with
  | 0 => .none
  | 1 => .pending
  | 2 => .finishing
  | _ => .abandoned

/-- The ticket held above the low two bits of a lifecycle word. -/
def lcTicket (word : Nat) : Nat :=
  word >>> 2

theorem edumpiLc_eq (ticket : Nat) (state : LcState) :
    edumpiLc ticket state = 4 * ticket + state.code := by
  -- The two bits of the state are free in the shifted ticket.
  have small : state.code < 2 ^ 2 := by cases state <;> decide
  rw [edumpiLc, ← Nat.shiftLeft_add_eq_or_of_lt small]
  omega

@[simp] theorem lcState_edumpiLc (ticket : Nat) (state : LcState) :
    lcState (edumpiLc ticket state) = state := by
  have low : (4 * ticket + state.code) &&& 3 = state.code := by
    rw [show (3 : Nat) = 2 ^ 2 - 1 from rfl, Nat.and_two_pow_sub_one_eq_mod]
    cases state <;> simp [LcState.code]
  rw [lcState, edumpiLc_eq, low]
  cases state <;> rfl

@[simp] theorem lcTicket_edumpiLc (ticket : Nat) (state : LcState) :
    lcTicket (edumpiLc ticket state) = ticket := by
  rw [lcTicket, edumpiLc_eq]
  cases state <;> simp only [LcState.code] <;> omega

/-- Two lifecycle words agree exactly when their tickets and their states do. -/
@[simp] theorem edumpiLc_inj {ticket ticket' : Nat} {state state' : LcState} :
    edumpiLc ticket state = edumpiLc ticket' state' ↔ ticket = ticket' ∧ state = state' := by
  constructor
  · intro same
    exact ⟨by rw [← lcTicket_edumpiLc ticket state, same, lcTicket_edumpiLc],
      by rw [← lcState_edumpiLc ticket state, same, lcState_edumpiLc]⟩
  · rintro ⟨rfl, rfl⟩
    rfl

/-- An entry with another lifecycle word. -/
def QEntry.withLifecycle (entry : QEntry) (word : Nat) : QEntry :=
  { entry with lifecycle := word }

@[simp] theorem QEntry.withLifecycle_lifecycle (entry : QEntry) (word : Nat) :
    (entry.withLifecycle word).lifecycle = word := rfl

/-- First half of the reset: everything but the lifecycle word is zeroed. -/
def QEntry.clearBody (entry : QEntry) : QEntry :=
  QEntry.zero.withLifecycle entry.lifecycle

/-- The reset of an entry for a new event: zeroed, and under a new ticket. -/
def edumpiEntryReset (slot : QEntry) (ticket : Nat) : QEntry :=
  slot.clearBody.withLifecycle (edumpiLc ticket .none)

/-! Filling an entry. -/

/-- The name recorded for a reduction operation. -/
def getMpiOpName : Op → String
  | .sum => "MPI_SUM"
  | .max => "MPI_MAX"
  | .min => "MPI_MIN"
  | .prod => "MPI_PROD"
  | .land => "MPI_LAND"
  | .band => "MPI_BAND"
  | .lor => "MPI_LOR"
  | .bor => "MPI_BOR"
  | .lxor => "MPI_LXOR"
  | .bxor => "MPI_BXOR"
  | .other => "UNKNOWN_OP"

/-- The name recorded for a datatype; a type without one leaves the field as it is. -/
def convertMpiDatatype (type : Datatype) (field : Vector UInt8 64) : Vector UInt8 64 :=
  match type with
  | .int => memcpy field (cText "MPI_INT") 7
  | .char => memcpy field (cText "MPI_CHAR") 8
  | .double => memcpy field (cText "MPI_DOUBLE") 10
  | .long => memcpy field (cText "MPI_LONG") 8
  | .other => field

/-- The rank in the world communicator of a peer that a call names by its own communicator. -/
def edumpiWorldRank (comm : Comm) (rank : Int32) : Int32 :=
  match comm with
  | .null | .commNull | .world => rank
  | .other _ _ inter size remoteSize peers =>
    if rank < 0 then rank
    else
      let count := if inter then remoteSize else size
      if (count : Int) ≤ rank.toInt then rank
      -- A lookup that finds no process leaves the rank as it is.
      else (peers[rank.toInt.toNat]?.join).getD rank

/-- The label of a communicator in the database. -/
def edumpiCommLabel (process : Process) (comm : Comm) (out : Vector UInt8 64) : Vector UInt8 64 :=
  let out := memcpy out [0] 1
  match comm with
  | .null | .commNull => out
  | .world => snprintf out (cText "MPI_COMM_WORLD")
  | .other name index inter size _ _ =>
    let base := (if name ≠ [] then name
      else cText "MPI COMM " ++ cText (toString index.toInt)).take 63
    -- The parts of a split share one name, so the first member's world rank tells them apart.
    if !inter && size < process.worldSize then
      snprintf out (base.take 52 ++ cText " @" ++ cText (toString (edumpiWorldRank comm 0).toInt))
    else snprintf out base

/-- The arguments a wrapper passes to the function that fills its entry. -/
structure EntryArgs where
  dest : Int32
  function : String
  functionLen : Nat
  sendCount : Int32
  recvCount : Int32
  commType : String
  commTypeLen : Nat
  sendType : Option Datatype
  recvType : Option Datatype
  comm : Comm
  blocking : Int32
  op : Option Op

/--
An entry filled in from the arguments of its call.

The two sizes are the counts times the size of a datatype handle, which is eight bytes.
-/
def initQentry (process : Process) (args : EntryArgs) (item : QEntry) : QEntry :=
  { item with
    id := 0
    function := memcpy item.function (cText args.function) args.functionLen
    blocking := args.blocking
    sendDatatype := args.sendType.elim item.sendDatatype (convertMpiDatatype · item.sendDatatype)
    recvDatatype := args.recvType.elim item.recvDatatype (convertMpiDatatype · item.recvDatatype)
    communicationType := memcpy item.communicationType (cText args.commType) args.commTypeLen
    sendcount := args.sendCount
    sendDatasize := args.sendCount.toInt64 * 8
    recvcount := args.recvCount
    recvDatasize := args.recvCount.toInt64 * 8
    operation := args.op.elim item.operation fun op =>
      memcpy item.operation (cText (getMpiOpName op)) 10
    communicationArea := edumpiCommLabel process args.comm item.communicationArea
    communicator := if args.comm = .null then item.communicator else args.comm
    processorname := memcpy item.processorname process.procName process.procName.length
    processrank := process.processrank
    partnerrank := edumpiWorldRank args.comm args.dest
    recvWaitingTime := 0
    sendWaitingTime := 0
    lateSenderTime := 0
    lateReceiverTime := 0
    endTime := ⟨0, 0⟩
    immediate := 0
    withinEagerLimit := -1
    foundMatchWild := -1
    collPartnerranks := Vector.replicate 50 0 }

end EduMpi
