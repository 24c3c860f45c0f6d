import EduMpi.Lib.Allreduce
import EduMpi.Opal.PointerArray

/-! The negotiation of a context id for a new communicator, by any number of processes. -/

namespace EduMpi.Ompi

open Allreduce Ints Opal

/-- What a slot of `ompi_mpi_communicators` points to: the sentinel of a reservation, or a
communicator. -/
inductive CommPtr where
  | sentinel
  | comm (id : Nat)
  deriving DecidableEq, Repr

/-- `INT64_MAX`. -/
def int64Max : Int := 2 ^ 63 - 1

/-- What all processes share: the limit of the PML, and whether fault tolerance is compiled in. -/
structure CidConfig where
  maxContextid : Nat
  ft : Bool

/-- One process with the context of its request. -/
structure CidProc where
  /-- `ompi_mpi_communicators`. -/
  table : PointerArray CommPtr
  /-- `ompi_comm_cid_lowest_id`. -/
  lowestId : Int
  /-- `ompi_comm_cid_epoch`. -/
  cidEpoch : Int
  myId : Int
  participate : Bool
  newcomm : Nat
  start : Int
  nextcid : Int
  nextlocalCid : Int
  nextcidEpoch : Int
  flag : Int
  /-- The index and the epoch of the new communicator, once they are set. -/
  cIndex : Option Int
  cEpoch : Option Int
  deriving DecidableEq

/-- How one function of the negotiation ends for its process. -/
inductive CidOutcome where
  | again | waits | done | failed
  deriving DecidableEq, Repr

/-- The loop that reserves the first free one of some slots. -/
def reserve (table : PointerArray CommPtr) :
    List Nat → Option (Option Nat × PointerArray CommPtr)
  | [] => some (none, table)
  | i :: rest => do
    let (flag, table) ← table.testAndSetItem i (some .sentinel)
    if flag then some (some i, table) else reserve table rest

namespace CidProc

variable (cfg : CidConfig) (p : CidProc)

/-- The slots that are tried, from the start of the search to the limit. -/
def slots : List Nat := List.range' p.start.toNat (cfg.maxContextid - p.start.toNat)

/-- A slot is asked to take the null pointer. Only a free one does. -/
def testAndClear (index : Int) : Option CidProc := do
  let (_, table) ← p.table.testAndSetItem index none
  return { p with table := table }

def setSlot (index : Int) (value : Option CommPtr) : Option CidProc := do
  let (_, table) ← p.table.setItem index value
  return { p with table := table }

/-- The proposal of `ompi_comm_allreduce_getnextcid`, and whether a slot was reserved for it. -/
def propose : Option (Bool × CidProc) :=
  if p.participate then do
    let (found, table) ← reserve p.table (p.slots cfg)
    let nextlocalCid : Int := match found with
      | some i => i
      | none => cfg.maxContextid
    let nextcidEpoch := p.cidEpoch - 1
    return (found.isSome, { p with
      table := table
      nextcidEpoch := nextcidEpoch
      -- Without an epoch an error is forced.
      nextlocalCid := if cfg.ft ∧ nextcidEpoch = 0 then cfg.maxContextid else nextlocalCid })
  else some (false, { p with nextlocalCid := 0, nextcidEpoch := intMax })

/-- The exit on an error, with the slot that should be given back if there is one. -/
def errExit (flag : Bool) : Option (CidOutcome × CidProc) := do
  let p ← if p.participate ∧ flag then p.testAndClear p.nextlocalCid else some p
  return (.failed, { p with lowestId := int64Max })

/-- `ompi_comm_allreduce_getnextcid`, when the first reduction can or cannot be started. -/
def getnextcid (starts : Bool) : Option (CidOutcome × CidProc) :=
  if p.lowestId < p.myId then some (.again, p)
  else do
    let (flag, p) ← propose cfg { p with lowestId := p.myId }
    -- A process that is out of ids leaves once its contribution is on its way.
    if starts ∧ p.nextlocalCid ≠ cfg.maxContextid then return (.waits, p)
    else p.errExit flag

/-- The flag of `ompi_comm_checkcid`: whether the process can use the largest proposal. -/
def tryNextcid : Option CidProc :=
  if !p.participate then some { p with flag := 1 }
  else if p.nextcid = p.nextlocalCid then some { p with flag := 1 }
  else do
    let p ← p.setSlot p.nextlocalCid none
    let (taken, table) ← p.table.testAndSetItem p.nextcid (some .sentinel)
    return { p with table := table, flag := if taken then 1 else 0 }

/-- With fault tolerance the flag carries the epoch. -/
def withEpoch : CidProc :=
  { p with flag := if cfg.ft ∧ p.flag ≠ 0 then p.nextcidEpoch else p.flag }

/-- `ompi_comm_checkcid`, with the result of the first reduction if it completed, when the second
one can or cannot be started. -/
def checkcid (result : Option Int) (starts : Bool) : Option (CidOutcome × CidProc) :=
  match result with
  | none => do
    let p ← if p.participate then p.setSlot p.nextlocalCid none else some p
    return (.failed, p)
  | some nextcid => do
    let p ← tryNextcid { p with nextcid := nextcid }
    let p := p.withEpoch cfg
    if starts then return (.waits, p) else p.errExit (p.flag ≠ 0)

/-- The slot that a process without a part in the new communicator takes. -/
def ownSlot : Option CidProc :=
  if p.participate then some p
  else do
    let (found, table) ← reserve p.table (p.slots cfg)
    let nextlocalCid : Int := match found with
      | some i => i
      | none => cfg.maxContextid
    return { p with table := table, nextlocalCid := nextlocalCid, nextcid := nextlocalCid }

/-- The new communicator gets its id, and its slot in the table. -/
def adopt (rflag : Int) : Option (CidOutcome × CidProc) := do
  let p ← p.setSlot p.nextcid (some (.comm p.newcomm))
  return (.done, { p with
    cIndex := some p.nextcid
    cEpoch := if cfg.ft then some (intMax - rflag) else p.cEpoch
    cidEpoch := if cfg.ft then p.cidEpoch - 1 else p.cidEpoch
    lowestId := int64Max })

/-- The process gives back an id that others cannot use, and looks for the next one behind it. -/
def giveBack : Option (CidOutcome × CidProc) :=
  if p.participate ∧ p.flag ≠ 0 then do
    let p ← p.setSlot p.nextcid none
    return (.again, { p with start := p.nextcid + 1 })
  else some (.again, p)

/-- `ompi_comm_nextcid_check_flag`, with the result of the second reduction if it completed. -/
def nextcidCheckFlag (result : Option Int) : Option (CidOutcome × CidProc) :=
  match result with
  | none => do
    let p ← if p.participate then p.setSlot p.nextcid none else some p
    return (.failed, p)
  | some rflag =>
    if rflag ≠ 0 then do
      let p ← ownSlot cfg p
      p.adopt cfg rflag
    else p.giveBack

end CidProc

/-- Where a process is in the negotiation. -/
inductive CidPhase where
  | proposing | waitMax | waitMin | done | failed
  deriving DecidableEq, Repr

structure CidNode where
  phase : CidPhase
  round : Nat
  proc : CidProc
  deriving DecidableEq

/-- All processes, and what they have contributed to the two reductions of each round. -/
structure CidState (n : Nat) where
  nodes : Fin n → CidNode
  maxPosts : Nat → Fin n → Option Int
  minPosts : Nat → Fin n → Option Int

/-- What one process does next, and whether the reductions that it waits for or starts work. -/
inductive CidAction (n : Nat) where
  | propose (i : Fin n) (starts : Bool)
  | check (i : Fin n) (completes starts : Bool)
  | finish (i : Fin n) (completes : Bool)

namespace CidState

variable {n : Nat} (cfg : CidConfig)

/-- A contribution to a reduction. -/
def post (posts : Nat → Fin n → Option Int) (round : Nat) (i : Fin n) (v : Int) :
    Nat → Fin n → Option Int :=
  Function.update posts round (Function.update (posts round) i (some v))

/-- The processes before the negotiation: each one starts its search at its lowest free slot. -/
def initial (procs : Fin n → CidProc) : CidState n where
  nodes i := ⟨.proposing, 0, { procs i with start := (procs i).table.lowestFree }⟩
  maxPosts _ _ := none
  minPosts _ _ := none

/-- The state with another node. -/
def setNode (s : CidState n) (i : Fin n) (node : CidNode) : CidState n :=
  { s with nodes := Function.update s.nodes i node }

/-- A result that is used once the reduction is complete; an error needs nobody else. -/
def result (reduced : Option Int) (completes : Bool) : Option (Option Int) :=
  if completes then reduced.map some else some none

/-- One step of one process. -/
def step (s : CidState n) : CidAction n → Option (CidState n)
  | .propose i starts => do
    let node := s.nodes i
    guard (node.phase = .proposing)
    let (outcome, p) ← node.proc.getnextcid cfg starts
    match outcome with
    | .again => return s
    | .waits =>
      return { s.setNode i ⟨.waitMax, node.round, p⟩ with
        maxPosts := post s.maxPosts node.round i p.nextlocalCid }
    | _ =>
      -- A process that runs out of slots has contributed before it leaves.
      return { s.setNode i ⟨.failed, node.round, p⟩ with
        maxPosts := if starts then post s.maxPosts node.round i p.nextlocalCid else s.maxPosts }
  | .check i completes starts => do
    let node := s.nodes i
    guard (node.phase = .waitMax)
    let nextcid ← result (maximum (s.maxPosts node.round)) completes
    let (outcome, p) ← node.proc.checkcid cfg nextcid starts
    if outcome = .waits then
      return { s.setNode i ⟨.waitMin, node.round, p⟩ with
        minPosts := post s.minPosts node.round i p.flag }
    else return s.setNode i ⟨.failed, node.round, p⟩
  | .finish i completes => do
    let node := s.nodes i
    guard (node.phase = .waitMin)
    let rflag ← result (minimum (s.minPosts node.round)) completes
    let (outcome, p) ← node.proc.nextcidCheckFlag cfg rflag
    match outcome with
    | .done => return s.setNode i ⟨.done, node.round, p⟩
    | .again => return s.setNode i ⟨.proposing, node.round + 1, p⟩
    | _ => return s.setNode i ⟨.failed, node.round, p⟩

end CidState

end EduMpi.Ompi
