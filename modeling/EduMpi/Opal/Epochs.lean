import EduMpi.Lib.Run
import Mathlib.Logic.Function.Basic

/-! Readers of the interval tree, and the deletes that reclaim its nodes behind them. -/

namespace EduMpi.Opal.Epochs

open Function (update)

/-- The most readers that can be inside the tree at once. -/
def maxReaders : Nat := 128

/-- The epoch of a reader slot without a reader. -/
def uintMax : UInt32 := 4294967295

/-- Where the reader of a slot stands. -/
inductive ReaderPc where
  | idle
  /-- It makes the number of slots cover its own, and has seen this number. -/
  | raising (seen : Nat)
  | loading
  /-- It has read this epoch and not published it yet. -/
  | publishing (epoch : UInt32)
  /-- It is between taking its token and returning it. -/
  | reading
deriving DecidableEq, Repr

/-- Where the holder of the write lock stands. -/
inductive WriterPc where
  | idle
  /-- A delete has unlinked a node, and its successor is still to be unlinked. -/
  | unlinked (node next : Nat)
  /-- The delete waits for the readers of this slot and the following ones. -/
  | waiting (slot : Nat) (epochId : UInt32) (node next : Nat)
deriving DecidableEq, Repr

/-- The tree as its reclamation sees it; every node that is allocated has its own number. -/
structure State where
  epoch : UInt32
  readerCount : Nat
  readerEpochs : Nat → UInt32
  readers : Nat → ReaderPc
  writer : WriterPc
  /-- The number of the next node that is allocated. -/
  fresh : Nat
  linked : Nat → Bool
  nodeEpoch : Nat → UInt32
  gcList : List Nat
  /-- The readers that were inside the tree when a node was unlinked, and still are. -/
  holders : Nat → Nat → Bool
  /-- The nodes returned to the free list, each with the slots of its readers at that time. -/
  returned : List (Nat × List Nat)

def State.initial : State where
  epoch := 0
  readerCount := 0
  readerEpochs := fun _ => uintMax
  readers := fun _ => .idle
  writer := .idle
  fresh := 0
  linked := fun _ => false
  nodeEpoch := fun _ => 0
  gcList := []
  holders := fun _ _ => false
  returned := []

/-- The calls of readers and writers, and the steps in which they go on. -/
inductive Action where
  | reader (slot : Nat)
  | insert
  | deleteLeaf (node : Nat)
  | deleteInterior (node next : Nat)
  | writer
deriving DecidableEq, Repr

namespace State

/-- The slots whose readers were inside the tree when a node was unlinked, and still are. -/
def holdersOf (s : State) (node : Nat) : List Nat :=
  (List.range maxReaders).filter (s.holders node)

/-- One step of the reader of a slot. -/
def readerStep (s : State) (slot : Nat) : State :=
  let goTo (s : State) (pc : ReaderPc) : State :=
    { s with readers := update s.readers slot pc }
  match s.readers slot with
  | .idle => goTo s (.raising s.readerCount)
  | .raising seen =>
    -- A failed exchange reads the number of slots again.
    if seen ≤ slot then
      if s.readerCount = seen then goTo { s with readerCount := slot + 1 } .loading
      else goTo s (.raising s.readerCount)
    else goTo s .loading
  | .loading => goTo s (.publishing s.epoch)
  | .publishing epoch =>
    if s.readerEpochs slot = uintMax then
      goTo { s with readerEpochs := update s.readerEpochs slot epoch } .reading
    else goTo s .loading
  | .reading =>
    -- The token is returned, so the reader holds no node any more.
    goTo { s with
      readerEpochs := update s.readerEpochs slot uintMax
      holders := fun node other => s.holders node other && other ≠ slot } .idle

/-- Takes a node out of the tree; the readers inside may still look at it. -/
def unlink (s : State) (node : Nat) : State :=
  { s with
    linked := update s.linked node false
    holders := update s.holders node fun slot => s.readers slot = .reading }

/-- Schedules a node for releasing. -/
def rpFree (s : State) (node : Nat) : State := { s with gcList := s.gcList ++ [node] }

/-- Returns a node to the free list. -/
def freeListReturn (s : State) (node : Nat) : State :=
  { s with returned := s.returned ++ [(node, s.holdersOf node)] }

/-- Puts a new node of an epoch into the tree. -/
def link (s : State) (epoch : UInt32) : State :=
  { s with
    fresh := s.fresh + 1
    linked := update s.linked s.fresh true
    nodeEpoch := update s.nodeEpoch s.fresh epoch }

/-- The least epoch in the slots that are in use. -/
def oldestEpoch (s : State) : UInt32 :=
  (List.range s.readerCount).foldl (fun oldest slot =>
    if oldest < s.readerEpochs slot then oldest else s.readerEpochs slot) uintMax

/-- Returns the nodes to the free list that are older than the oldest reader. An insert is one step
of the model, so that no reader moves between its looks at a slot. -/
def gcClean (s : State) : State :=
  if s.gcList = [] then s
  else
    -- One walk over the list takes each of them out.
    let old := s.gcList.filter fun node => s.nodeEpoch node < s.oldestEpoch
    { s with
      gcList := s.gcList.filter fun node => ¬ s.nodeEpoch node < s.oldestEpoch
      returned := s.returned ++ old.map fun node => (node, s.holdersOf node) }

/-- A delete goes on; it waits while a reader has an older epoch. -/
def writerStep (s : State) : Option State :=
  match s.writer with
  | .idle => none
  | .unlinked node next =>
    some { s with epoch := s.epoch + 1, writer := .waiting 0 (s.epoch + 1) node next }
  | .waiting slot epochId node next =>
    if slot < s.readerCount then
      if s.readerEpochs slot < epochId then none
      else some { s with writer := .waiting (slot + 1) epochId node next }
    else
      -- The successor is then deleted as a leaf.
      some { ((s.freeListReturn node).unlink next).rpFree next with writer := .idle }

/-- One step; an insert is whole, a delete starts with the write lock, and the shape of the tree decides
which case of the delete applies. -/
def step (s : State) : Action → Option State
  | .reader slot => if slot < maxReaders then some (s.readerStep slot) else none
  | .insert => if s.writer ≠ .idle then none else some (s.gcClean.link s.epoch)
  | .deleteLeaf node =>
    if s.writer ≠ .idle ∨ s.linked node = false then none
    else some ((s.unlink node).rpFree node)
  | .deleteInterior node next =>
    if s.writer ≠ .idle ∨ s.linked node = false ∨ s.linked next = false ∨ node = next then none
    else
      -- A copy of the successor, with its epoch, takes the place of the node.
      some { (s.link (s.nodeEpoch next)).unlink node with writer := .unlinked node next }
  | .writer => s.writerStep

end State

end EduMpi.Opal.Epochs
