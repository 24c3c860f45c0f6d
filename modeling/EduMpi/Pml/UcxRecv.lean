import EduMpi.Trace.AmtRing

/-! Instrumented calls on the ring for many producers, with the receive requests of the UCX PML. -/

namespace EduMpi.Ucx

open AmtRing (Pointer edumpiAmtRingClaim edumpiAmtRingDrain)
open Function (update)

/-- Who claims an entry: a call for itself, or the completion of its receive for a late one. -/
inductive Claimant (C : Type) where
  | call (c : C)
  | late (c : C)
deriving DecidableEq, Repr

/-- The rank that stands for no process. -/
def mpiProcNull : Int32 := -2

/-- How a non-blocking receive goes on behind the fill of its entry. -/
inductive Outcome where
  /-- An argument check fails. -/
  | rejected
  /-- The transport cannot post the receive. -/
  | failed
  | posted
deriving DecidableEq, Repr

/-- The arguments of a non-blocking receive that its entry depends on. -/
structure IrecvArgs where
  source : Int32
  count : Int32
  type : Datatype
  comm : Comm
  outcome : Outcome

/-- What a call does with its entry. -/
inductive Call where
  | irecv (args : IrecvArgs)
  /-- Any other call: the stores into its entry, one after the other. -/
  | other (stores : List (QEntry → QEntry))

/-- The status of a finished receive. -/
structure RecvStatus where
  cancelled : Bool
  ucount : Int64
  mpiSource : Int32

/-- The calls of a run, their threads, and how their receives end. -/
structure Config (C T : Type) where
  ring : AmtRing.Config
  process : Process
  call : C → Call
  status : C → RecvStatus
  thread : C → T
  /-- The thread on which the completion of a receive runs. -/
  finisher : C → T

/-- The thread that calls the claim function. -/
def Config.threadOf {C T : Type} (cfg : Config C T) : Claimant C → T
  | .call c => cfg.thread c
  | .late c => cfg.finisher c

/-- The private area behind a receive request, and whether the request exists. -/
structure ReqExt (T : Type) where
  q : Option (Pointer T)
  ticket : Nat
  bytes : Int64
  source : Int32
  cbDone : Bool
  finished : Bool
  partner : Int32
  communicator : Comm
  area : Vector UInt8 64
  posted : Bool

/-- The private area as `edumpi_ucx_req_ext_reset` leaves it. -/
def edumpiUcxReqExtReset (T : Type) : ReqExt T where
  q := none
  ticket := 0
  bytes := 0
  source := -1
  cbDone := false
  finished := false
  partner := -1
  communicator := .null
  area := Vector.replicate 64 0
  posted := false

/-- Where a call stands. -/
inductive CallPc where
  | idle
  | claiming
  /-- Stores of a call that is no receive, by their number. -/
  | stores (made : Nat)
  | fill
  | pending
  | checks
  | post
  | clearPending
  /-- From here to the exchange: `edumpi_ucx_attach_entry`. -/
  | snapshot
  | arm
  | publish
  | check
  | exchange
  /-- The call runs the completion of its own receive. -/
  | completing
  | stampSec
  | stampNsec (now : Timespec)
  | returned
deriving DecidableEq, Repr

/-- Where the completion callback of a receive stands. -/
inductive CallbackPc where
  | waiting
  | storeDone
  | loadQ
  | exchange
  | ran
deriving DecidableEq, Repr

/-- Where the completion of an entry stands, behind the exchange that lets only one side do it. -/
inductive CompletePc where
  | none
  | compareExchange
  | partner
  | endSec
  | endNsec (now : Timespec)
  | copyStart
  | size
  | done
  /-- The entry was completed in place. -/
  | finished
  | claiming
  | lateFill
  | lateNsec (now : Timespec)
  | lateSec (now : Timespec)
  /-- A late entry was written. -/
  | wrote
deriving DecidableEq, Repr

/-- The ring and everything that happens around it. -/
structure State (C T : Type) where
  ring : AmtRing.State (Claimant C) T
  calls : C → CallPc
  callbacks : C → CallbackPc
  completes : C → CompletePc
  ext : C → ReqExt T
  /-- The call a thread is in. -/
  running : T → Option C

/-- The arguments with which a receive fills its entry. -/
def IrecvArgs.entryArgs (args : IrecvArgs) : EntryArgs where
  dest := args.source
  function := "MPI_Irecv"
  functionLen := 9
  sendCount := 0
  recvCount := 0
  commType := "p2p"
  commTypeLen := 3
  sendType := none
  recvType := some args.type
  comm := args.comm
  blocking := 0
  op := none

/-- The received size that a callback reports; a cancelled receive has none. -/
def RecvStatus.received (status : RecvStatus) : Int64 :=
  if status.cancelled then 0 else status.ucount

/-- The sender that a callback reports. -/
def RecvStatus.sender (status : RecvStatus) : Int32 :=
  if status.cancelled then -1 else status.mpiSource

/-- A receive fills its entry when it starts. -/
def IrecvArgs.fill (args : IrecvArgs) (process : Process) (now : Timespec) (item : QEntry) :
    QEntry :=
  { initQentry process args.entryArgs item with startTime := now }

/-- The transport counts a receive it posts. -/
def IrecvArgs.recount (args : IrecvArgs) (item : QEntry) : QEntry :=
  { item with blocking := 0, recvcount := item.recvcount + args.count }

/-- The snapshot that `edumpi_ucx_attach_entry` takes of an entry. -/
def snapshotOf {T : Type} (q : QEntry) (x : ReqExt T) : ReqExt T :=
  { x with
    ticket := lcTicket q.lifecycle
    partner := q.partnerrank
    communicator := q.communicator
    area := q.communicationArea }

/-- A completion names the sender where the receive was posted for any. -/
def ReqExt.nameSender {T : Type} (x : ReqExt T) (q : QEntry) : QEntry :=
  { q with
    partnerrank := if 0 ≤ x.source ∧ q.partnerrank < 0 then edumpiWorldRank q.communicator x.source
      else q.partnerrank }

/-- A late entry, filled from the snapshot in the request. -/
def lateEntry {T : Type} (process : Process) (x : ReqExt T) (now : Timespec) (n : QEntry) :
    QEntry :=
  let args : EntryArgs :=
    { dest := if 0 ≤ x.source then edumpiWorldRank x.communicator x.source else x.partner
      function := "MPI_Irecv"
      functionLen := 9
      sendCount := 0
      recvCount := 0
      commType := "p2p"
      commTypeLen := 3
      sendType := none
      recvType := none
      comm := .null
      blocking := 0
      op := none }
  { initQentry process args n with
    communicationArea := x.area
    communicator := x.communicator
    recvDatasize := x.bytes
    startTime := now }

section Machine

variable {C T : Type} [DecidableEq C] [DecidableEq T]

/-- Before the first call. -/
def initial : State C T where
  ring := AmtRing.initial fun _ => QEntry.zero
  calls := fun _ => .idle
  callbacks := fun _ => .waiting
  completes := fun _ => .none
  ext := fun _ => edumpiUcxReqExtReset T
  running := fun _ => none

def State.callAt (s : State C T) (c : C) (pc : CallPc) : State C T :=
  { s with calls := update s.calls c pc }

def State.callbackAt (s : State C T) (c : C) (pc : CallbackPc) : State C T :=
  { s with callbacks := update s.callbacks c pc }

def State.completeAt (s : State C T) (c : C) (pc : CompletePc) : State C T :=
  { s with completes := update s.completes c pc }

def State.setExt (s : State C T) (c : C) (x : ReqExt T) : State C T :=
  { s with ext := update s.ext c x }

/-- The entry a claimant was given. -/
def State.item (cfg : Config C T) (s : State C T) (k : Claimant C) : Pointer T :=
  s.ring.given cfg.ring cfg.threadOf k

/-- A claimant stores into the entry it was given. -/
def State.store (cfg : Config C T) (s : State C T) (k : Claimant C) (change : QEntry → QEntry) :
    State C T :=
  { s with ring := s.ring.store k (s.item cfg k) change }

/-- A claimant stores into a lifecycle word. -/
def State.storeLifecycle (s : State C T) (k : Claimant C) (q : Pointer T) (word : Nat) :
    State C T :=
  { s with ring := s.ring.storeLifecycle k q word }

/-- A call returns. -/
def State.return (cfg : Config C T) (s : State C T) (c : C) : State C T :=
  { s.callAt c .returned with running := update s.running (cfg.thread c) none }

/-- One memory access of a call that is no receive. -/
def otherCall (cfg : Config C T) (c : C) (stores : List (QEntry → QEntry)) (s : State C T) :
    Option (State C T) :=
  match s.calls c with
  | .stores made =>
    match stores[made]? with
    | some change => some ((s.store cfg (.call c) change).callAt c (.stores (made + 1)))
    | none => some (s.return cfg c)
  | _ => none

/-- One memory access of `MPI_Irecv` behind its claim, down to `edumpi_ucx_attach_entry`. -/
def mpiIrecv (cfg : Config C T) (c : C) (args : IrecvArgs) (now : Timespec) (s : State C T) :
    Option (State C T) :=
  let x := s.ext c
  let q := s.item cfg (.call c)
  let item := s.ring.deref q
  match s.calls c with
  | .fill =>
    some ((s.store cfg (.call c) (args.fill cfg.process now)).callAt c .pending)
  | .pending =>
    if args.source = mpiProcNull then some (s.callAt c .checks)
    else some ((s.store cfg (.call c) ({ · with pendingRequest := 1 })).callAt c .checks)
  | .checks =>
    -- Neither of these two ways out stamps the entry.
    if args.outcome = .rejected ∨ args.source = mpiProcNull then some (s.return cfg c)
    else some (s.callAt c .post)
  | .post =>
    let s := s.store cfg (.call c) args.recount
    if args.outcome = .failed then some (s.callAt c .clearPending)
    else some ((s.setExt c { x with posted := true }).callAt c .snapshot)
  | .clearPending =>
    some ((s.store cfg (.call c) ({ · with pendingRequest := 0 })).callAt c .stampSec)
  | .snapshot =>
    some ((s.setExt c (snapshotOf item x)).callAt c .arm)
  | .arm => some ((s.storeLifecycle (.call c) q (edumpiLc x.ticket .pending)).callAt c .publish)
  | .publish => some ((s.setExt c { x with q := some q }).callAt c .check)
  | .check => some (s.callAt c (if x.cbDone then .exchange else .stampSec))
  | .exchange =>
    if x.finished then some (s.callAt c .stampSec)
    else
      some (((s.setExt c { x with finished := true }).completeAt c .compareExchange).callAt c
        .completing)
  | .completing =>
    if s.completes c = .finished ∨ s.completes c = .wrote then some (s.callAt c .stampSec)
    else none
  | .stampSec =>
    some ((s.store cfg (.call c) fun item =>
      { item with endTime := { item.endTime with tvSec := now.tvSec } }).callAt c (.stampNsec now))
  | .stampNsec now =>
    some ((s.store cfg (.call c) fun item =>
      { item with endTime := { item.endTime with tvNsec := now.tvNsec } }).return cfg c)
  | _ => none

/-- One memory access of a call; a thread is in one call at a time. -/
def stepCall (cfg : Config C T) (c : C) (now : Timespec) (s : State C T) : Option (State C T) :=
  match s.calls c with
  | .idle =>
    if s.running (cfg.thread c) = none then
      some { s.callAt c .claiming with
        running := update s.running (cfg.thread c) (some c) }
    else none
  | .claiming =>
    match edumpiAmtRingClaim cfg.ring cfg.threadOf (.call c) s.ring, cfg.call c with
    | some ring, _ => some { s with ring := ring }
    | none, .irecv _ => some (s.callAt c .fill)
    | none, .other _ => some (s.callAt c (.stores 0))
  | _ =>
    match cfg.call c with
    | .irecv args => mpiIrecv cfg c args now s
    | .other stores => otherCall cfg c stores s

/-- One memory access of `edumpi_ucx_recv_finished`, which may run once the receive is posted. -/
def edumpiUcxRecvFinished (cfg : Config C T) (c : C) (s : State C T) : Option (State C T) :=
  let x := s.ext c
  let status := cfg.status c
  match s.callbacks c with
  | .waiting =>
    if x.posted then
      some ((s.setExt c { x with bytes := status.received, source := status.sender }).callbackAt c
        .storeDone)
    else none
  | .storeDone => some ((s.setExt c { x with cbDone := true }).callbackAt c .loadQ)
  | .loadQ => some (s.callbackAt c (if x.q.isSome then .exchange else .ran))
  | .exchange =>
    if x.finished then some (s.callbackAt c .ran)
    else
      some (((s.setExt c { x with finished := true }).completeAt c .compareExchange).callbackAt c
        .ran)
  | .ran => none

/-- One memory access of `edumpi_ucx_complete_entry` behind its exchange. -/
def edumpiUcxCompleteEntry (cfg : Config C T) (c : C) (now : Timespec) (s : State C T) :
    Option (State C T) :=
  let x := s.ext c
  match s.completes c, x.q with
  | .compareExchange, some q =>
    if (s.ring.deref q).lifecycle = edumpiLc x.ticket .pending then
      some ((s.storeLifecycle (.call c) q (edumpiLc x.ticket .finishing)).completeAt c .partner)
    else some (s.completeAt c .claiming)
  | .partner, _ =>
    some ((s.store cfg (.call c) x.nameSender).completeAt c .endSec)
  | .endSec, _ =>
    some ((s.store cfg (.call c) fun q =>
      { q with endTime := { q.endTime with tvSec := now.tvSec } }).completeAt c (.endNsec now))
  | .endNsec now, _ =>
    some ((s.store cfg (.call c) fun q =>
      { q with endTime := { q.endTime with tvNsec := now.tvNsec } }).completeAt c .copyStart)
  | .copyStart, _ =>
    some ((s.store cfg (.call c) fun q => { q with startTime := q.endTime }).completeAt c .size)
  | .size, _ =>
    some ((s.store cfg (.call c) ({ · with recvDatasize := x.bytes })).completeAt c .done)
  | .done, _ =>
    some ((s.store cfg (.call c) ({ · with requestDone := 1 })).completeAt c .finished)
  | .claiming, _ =>
    match edumpiAmtRingClaim cfg.ring cfg.threadOf (.late c) s.ring with
    | some ring => some { s with ring := ring }
    | none => some (s.completeAt c .lateFill)
  | .lateFill, _ =>
    some ((s.store cfg (.late c) (lateEntry cfg.process x now)).completeAt c (.lateNsec now))
  | .lateNsec now, _ =>
    some ((s.store cfg (.late c) fun n =>
      { n with endTime := { n.endTime with tvNsec := now.tvNsec } }).completeAt c (.lateSec now))
  | .lateSec now, _ =>
    some ((s.store cfg (.late c) fun n =>
      { n with endTime := { n.endTime with tvSec := now.tvSec } }).completeAt c .wrote)
  | _, _ => none

/-- What can happen next; a step that reads a clock reads the given time. -/
inductive Action (C : Type) where
  | call (c : C) (now : Timespec)
  | callback (c : C)
  | complete (c : C) (now : Timespec)
  | drainCall (force : Bool) (max : Int)
  | drain (clock : Int)

/-- One memory access of one of the threads. -/
def step (cfg : Config C T) (s : State C T) : Action C → Option (State C T)
  | .call c now => stepCall cfg c now s
  | .callback c => edumpiUcxRecvFinished cfg c s
  | .complete c now => edumpiUcxCompleteEntry cfg c now s
  | .drainCall force max =>
    (AmtRing.step cfg.ring cfg.threadOf s.ring (.drainCall force max)).map fun ring =>
      { s with ring := ring }
  | .drain clock =>
    (AmtRing.step cfg.ring cfg.threadOf s.ring (.drain clock)).map fun ring =>
      { s with ring := ring }

end Machine

end EduMpi.Ucx
