import EduMpi.Opal.HashTable

/-! The table of processes: a hash table of job numbers whose values are hash tables of process
numbers. -/

namespace EduMpi.Opal

open Function (update)

/-- A process: its job and its number in the job. -/
abbrev ProcessName := UInt32 × UInt32

/-- A process table with the tables of its jobs, which are named by reference. -/
structure ProcTable (V : Type) where
  super : HashTable UInt32 Nat
  vpidsSize : Nat
  /-- The tables of jobs that are allocated; a released table cannot be used. -/
  heap : Nat → Option (HashTable UInt32 V)
  /-- The reference of the next table that is allocated. -/
  fresh : Nat

namespace ProcTable

variable {V : Type}

def init (jobids vpids : Nat) : Option (HashRc × ProcTable V) := do
  let (rc, super) ← HashTable.init jobids
  return (rc, ⟨super, vpids, fun _ => none, 0⟩)

def getValue (pt : ProcTable V) (key : ProcessName) : Option (HashRc × Option V) := do
  let (rc, found) ← pt.super.getValue UInt32.toNat key.1
  match found with
  | none => return (rc, none)
  | some ref =>
    let vpids ← pt.heap ref
    vpids.getValue UInt32.toNat key.2

/-- Allocates the table of a new job and puts it into the table of jobs. -/
def newVpids (pt : ProcTable V) (jobid : UInt32) : Option (HashRc × ProcTable V) := do
  let (rc, vpids) ← HashTable.init pt.vpidsSize
  if rc ≠ .success then return (rc, { pt with fresh := pt.fresh + 1 })
  let (rc, super) ← pt.super.setValue UInt32.toNat jobid pt.fresh
  if rc ≠ .success then return (rc, { pt with super := super, fresh := pt.fresh + 1 })
  return (.success, { pt with
    super := super
    heap := update pt.heap pt.fresh (some vpids)
    fresh := pt.fresh + 1 })

/-- Stores a value in the table of a job. -/
def setVpid (pt : ProcTable V) (ref : Nat) (vpid : UInt32) (value : V) :
    Option (HashRc × ProcTable V) := do
  let vpids ← pt.heap ref
  let (rc, vpids) ← vpids.setValue UInt32.toNat vpid value
  return (rc, { pt with heap := update pt.heap ref (some vpids) })

def setValue (pt : ProcTable V) (key : ProcessName) (value : V) :
    Option (HashRc × ProcTable V) := do
  let (_, found) ← pt.super.getValue UInt32.toNat key.1
  match found with
  | some ref => pt.setVpid ref key.2 value
  | none =>
    let (rc, grown) ← pt.newVpids key.1
    if rc ≠ .success then return (rc, grown)
    grown.setVpid pt.fresh key.2 value

def removeValue (pt : ProcTable V) (key : ProcessName) : Option (HashRc × ProcTable V) := do
  let (rc, found) ← pt.super.getValue UInt32.toNat key.1
  match found with
  | none => return (rc, pt)
  | some ref =>
    let vpids ← pt.heap ref
    let (rc, vpids) ← vpids.removeValue UInt32.toNat key.2
    if rc = .success ∧ vpids.size = 0 then
      -- The table of a job without processes is taken out and released.
      let (_, super) ← pt.super.removeValue UInt32.toNat key.1
      return (rc, { pt with super := super, heap := update pt.heap ref none })
    return (rc, { pt with heap := update pt.heap ref (some vpids) })

/-- Releases the tables of jobs one after another; they stay in the table of jobs. -/
def releaseFrom : Nat → Option Nat → ProcTable V → Option (ProcTable V)
  | 0, _, _ => none
  | turns + 1, node, pt =>
    match pt.super.getNextKey node with
    | none => some pt
    | some ((_, ref), next) => do
      let _ ← pt.heap ref
      releaseFrom turns (some next) { pt with heap := update pt.heap ref none }

/-- The loop ends with the error code of the search for a further job. -/
def removeAll (pt : ProcTable V) : Option (HashRc × ProcTable V) :=
  (releaseFrom (pt.super.capacity + 1) none pt).map (.error, ·)

/-- The first process of the job in a slot. -/
def firstOf (pt : ProcTable V) (job : Option ((UInt32 × Nat) × Nat)) :
    Option (Option ((ProcessName × V) × Nat × Nat)) :=
  match job with
  | none => some none
  | some ((jobid, ref), node) => do
    let vpids ← pt.heap ref
    match vpids.getFirstKey with
    | none => return none
    | some ((vpid, value), inner) => return some (((jobid, vpid), value), node, inner)

def getFirstKey (pt : ProcTable V) : Option (Option ((ProcessName × V) × Nat × Nat)) :=
  pt.firstOf pt.super.getFirstKey

/-- The process behind the one in a slot of a job's table, none at the end. -/
def getNextKey (pt : ProcTable V) (inNode1 inNode2 : Nat) :
    Option (Option ((ProcessName × V) × Nat × Nat)) := do
  let (jobid, ref) ← pt.super.slot inNode1
  let vpids ← pt.heap ref
  match vpids.getNextKey (some inNode2) with
  | some ((vpid, value), inner) => return some (((jobid, vpid), value), inNode1, inner)
  | none => pt.firstOf (pt.super.getNextKey (some inNode1))

/-- The pairs that a traversal of a number of turns visits behind a process. -/
def traverseFrom (pt : ProcTable V) : Nat → Nat → Nat → Option (List (ProcessName × V))
  | 0, _, _ => some []
  | turns + 1, node, inner => do
    match ← pt.getNextKey node inner with
    | none => return []
    | some (pair, node, inner) => return pair :: (← pt.traverseFrom turns node inner)

/-- The pairs that a traversal of a number of turns visits. -/
def traverse (pt : ProcTable V) : Nat → Option (List (ProcessName × V))
  | 0 => some []
  | turns + 1 => do
    match ← pt.getFirstKey with
    | none => return []
    | some (pair, node, inner) => return pair :: (← pt.traverseFrom turns node inner)

end ProcTable

/-- A process table, and the map its calls put together. -/
structure ProcState (V : Type) where
  pt : ProcTable V
  live : ProcessName → Option V

/-- The calls that change a process table. -/
inductive ProcAction (V : Type) where
  | setValue (key : ProcessName) (value : V)
  | removeValue (key : ProcessName)
  | removeAll

/-- One call. -/
def ProcState.step {V : Type} (s : ProcState V) : ProcAction V → Option (ProcState V)
  | .setValue key value => do
    let (_, pt) ← s.pt.setValue key value
    return ⟨pt, update s.live key (some value)⟩
  | .removeValue key => do
    let (_, pt) ← s.pt.removeValue key
    return ⟨pt, update s.live key none⟩
  | .removeAll => do
    let (_, pt) ← s.pt.removeAll
    return ⟨pt, fun _ => none⟩

end EduMpi.Opal
