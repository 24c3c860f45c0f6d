import EduMpi.Pml.UcxRecv
import EduMpi.Trace.Pgcopy

/-! A receive completed in place and one completed late give the same row. -/

namespace EduMpi.Ucx

open Bytes

/-- The entry of a posted receive, as the stores of the call leave it. -/
def attachedEntry (process : Process) (args : IrecvArgs) (now : Timespec) (slot : QEntry)
    (ticket : Nat) : QEntry :=
  let item := { args.fill process now (edumpiEntryReset slot ticket) with pendingRequest := 1 }
  (args.recount item).withLifecycle (edumpiLc ticket .pending)

/-- The callback's report in a request. -/
def reportOf {T : Type} (status : RecvStatus) (x : ReqExt T) : ReqExt T :=
  { x with bytes := status.received, source := status.sender, cbDone := true }

/-- An entry completed in place, as the stores of the completion leave it. -/
def completedEntry {T : Type} (x : ReqExt T) (now : Timespec) (q : QEntry) : QEntry :=
  let q := x.nameSender (q.withLifecycle (edumpiLc x.ticket .finishing))
  { q with endTime := now, startTime := now, recvDatasize := x.bytes, requestDone := 1 }

/-- The columns that do not depend on the clock, as the row writer writes each of them. -/
def timelessColumns (item : QEntry) (buffer : Memory) (offset : Nat) : List (Memory × Nat) :=
  [stringToBinary item.function buffer offset,
   stringToBinary item.communicationType buffer offset,
   int64ToBinary item.sendDatasize buffer offset,
   int64ToBinary item.recvDatasize buffer offset,
   stringToBinary item.communicationArea buffer offset,
   stringToBinary item.processorname buffer offset,
   intToBinary item.processrank buffer offset,
   intToBinary item.partnerrank buffer offset,
   stringToBinary item.usedAlgorithm buffer offset,
   byteaToBinary item.collPartnerranks.toList 400
     (textOf item.communicationType ≠ cText "collective") buffer offset]

/-- The sender is the one the receive was posted for, unless any may send. -/
def IrecvArgs.Matches (args : IrecvArgs) (status : RecvStatus) : Prop :=
  status.cancelled = true ∨ args.source = -1 ∨ status.mpiSource = args.source

theorem edumpiWorldRank_anySource (comm : Comm) : edumpiWorldRank comm (-1) = -1 := by
  cases comm <;> rfl

/-- Both ways name the same partner: the sender, or the posted source if there is none. -/
theorem partner_eq {args : IrecvArgs} {status : RecvStatus} (matching : args.Matches status) :
    (if 0 ≤ status.sender ∧ edumpiWorldRank args.comm args.source < 0 then
        edumpiWorldRank args.comm status.sender
      else edumpiWorldRank args.comm args.source)
      = if 0 ≤ status.sender then edumpiWorldRank args.comm status.sender
        else edumpiWorldRank args.comm args.source := by
  by_cases sent : 0 ≤ status.sender
  · rcases matching with cancelled | any | same
    · -- A cancelled receive has no sender.
      rw [RecvStatus.sender, if_pos cancelled] at sent
      exact absurd sent (by decide)
    · simp [sent, any, edumpiWorldRank_anySource]
    · -- The rank kept from the post is the one the sender would be translated to.
      have sender : status.sender = args.source ∨ status.sender = -1 := by
        unfold RecvStatus.sender
        split <;> simp [same]
      rcases sender with sender | none
      · simp [sender]
      · rw [none] at sent
        exact absurd sent (by decide)
  · simp [sent]

theorem attachedEntry_communicator (process : Process) (args : IrecvArgs) (now : Timespec)
    (slot : QEntry) (ticket : Nat) :
    (attachedEntry process args now slot ticket).communicator = args.comm := by
  change (if args.comm = .null then Comm.null else args.comm) = args.comm
  split
  · next null => rw [null]
  · rfl

/-- The row of a receive does not depend on whether its entry was abandoned. -/
theorem late_row_eq {T : Type} (process : Process) (args : IrecvArgs) (status : RecvStatus)
    (posted arrived late : Timespec) (slot fresh : QEntry) (ticket ticket' : Nat)
    (matching : args.Matches status) (buffer : Memory) (offset : Nat) :
    let q := attachedEntry process args posted slot ticket
    let x := reportOf status (snapshotOf q (edumpiUcxReqExtReset T))
    timelessColumns (completedEntry x arrived q) buffer offset
      = timelessColumns (lateEntry process x late (edumpiEntryReset fresh ticket')) buffer offset := by
  intro q x
  have communicator : q.communicator = args.comm := attachedEntry_communicator ..
  have partner : (completedEntry x arrived q).partnerrank
      = (lateEntry process x late (edumpiEntryReset fresh ticket')).partnerrank := by
    change (if 0 ≤ status.sender ∧ edumpiWorldRank args.comm args.source < 0 then
        edumpiWorldRank q.communicator status.sender
      else edumpiWorldRank args.comm args.source)
      = if 0 ≤ status.sender then edumpiWorldRank q.communicator status.sender
        else edumpiWorldRank args.comm args.source
    rw [communicator]
    exact partner_eq matching
  unfold timelessColumns
  rw [partner]
  dsimp only [completedEntry, ReqExt.nameSender, QEntry.withLifecycle]
  rfl

/-- A receive from any source gets its message from rank one. -/
theorem late_row_anySource :
    let args : IrecvArgs := ⟨-1, 1, .int, .world, .posted⟩
    let q := attachedEntry ⟨0, [], 2⟩ args ⟨5, 0⟩ QEntry.zero 1
    let x := reportOf ⟨false, 4, 1⟩ (snapshotOf q (edumpiUcxReqExtReset Unit))
    timelessColumns (completedEntry x ⟨8, 0⟩ q) (fun _ => 0) 0
      = timelessColumns (lateEntry ⟨0, [], 2⟩ x ⟨8, 0⟩ (edumpiEntryReset QEntry.zero 2))
          (fun _ => 0) 0 :=
  late_row_eq _ _ _ _ _ _ _ _ _ _ (.inr (.inl rfl)) _ _

end EduMpi.Ucx
