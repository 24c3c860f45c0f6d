import EduMpi.Lib.Ints
import EduMpi.Lib.Positions

/-! Groups of processes, the four ways they are stored, and the translation of ranks. -/

namespace EduMpi.Ompi

open Positions

/-- `MPI_UNDEFINED`. -/
def undefined : Int := -32766

/-- `MPI_PROC_NULL`. -/
def procNull : Int := -2

/-- `opal_process_name_t`. -/
structure ProcName where
  jobid : UInt32
  vpid : UInt32
  deriving DecidableEq, Repr

/-- `opal_compare_opal_procs`. -/
def compareProcs (p1 p2 : ProcName) : Int :=
  if p1.jobid < p2.jobid then -1
  else if p2.jobid < p1.jobid then 1
  else if p1.vpid < p2.vpid then -1
  else if p2.vpid < p1.vpid then 1
  else 0

/-- An entry of a process list: a process, or a sentinel that only holds its name. -/
inductive ProcPtr where
  | proc (name : ProcName)
  | sentinel (name : ProcName)
  deriving DecidableEq, Repr

def ProcPtr.name : ProcPtr → ProcName
  | proc name => name
  | sentinel name => name

/-- `ompi_group_sporadic_list_t`: ranks that follow one another. -/
structure Run where
  rankFirst : Int
  length : Int
  deriving DecidableEq, Repr

/-- How a sparse group describes its ranks in the parent group. -/
inductive Sparse where
  | sporadic (list : List Run)
  | strided (offset stride lastElement : Int)
  | bitmap (array : List UInt8)
  deriving DecidableEq, Repr

/-- `ompi_group_t`. The address tells groups apart that hold the same processes, so that two groups
are one object exactly when they are equal. -/
inductive Group where
  | dense (addr : Nat) (procs : List ProcPtr) (myRank : Int)
  | sparse (addr : Nat) (parent : Group) (procCount : Int) (myRank : Int) (data : Sparse)
  deriving DecidableEq, Repr

namespace Group

/-- `MPI_GROUP_EMPTY`. -/
def empty : Group := dense 0 [] undefined

def procCount : Group → Int
  | dense _ procs _ => procs.length
  | sparse _ _ procCount _ _ => procCount

def myRank : Group → Int
  | dense _ _ myRank => myRank
  | sparse _ _ _ myRank _ => myRank

/-- The description of a group as a child of the other, if it is one. -/
def sparseIn : Group → Group → Option Sparse
  | sparse _ parent _ _ data, other => if parent = other then some data else none
  | dense .., _ => none

end Group

section Sporadic

/-- The search in `ompi_group_translate_ranks_sporadic`, with the length of the runs passed. -/
def sporadicRank (rank : Int) : List Run → Int → Int
  | [], _ => undefined
  | run :: runs, count =>
    if run.rankFirst ≤ rank ∧ rank ≤ run.rankFirst + run.length - 1 then
      rank - run.rankFirst + count
    else sporadicRank rank runs (count + run.length)

/-- The search in `ompi_group_translate_ranks_sporadic_reverse`; behind the last run nothing is
written. -/
def sporadicParentRank (rank : Int) : List Run → Int → Option Int
  | [], _ => none
  | run :: runs, count =>
    if count + run.length - 1 < rank then sporadicParentRank rank runs (count + run.length)
    else some (run.rankFirst + (rank - count))

end Sporadic

section Bitmap

/-- The bits of a byte, lowest first, each tested by its mask. -/
def bitsOf (byte : UInt8) : List Bool :=
  (List.range 8).map fun k => (1 : UInt8) <<< UInt8.ofNat k == byte &&& 1 <<< UInt8.ofNat k

/-- The bits of a bitmap in the order in which the nested loops visit them. -/
def bits (array : List UInt8) : List Bool := array.flatMap bitsOf

/-- The loops of `ompi_group_translate_ranks_bmap`: the ones up to a position. -/
def countBits : List Bool → Nat → Int → Int
  | [], _, _ => undefined
  | bit :: _, 0, count => (if bit then count + 1 else count) - 1
  | bit :: bits, m + 1, count => countBits bits m (if bit then count + 1 else count)

/-- `ompi_group_translate_ranks_bmap` for one rank. -/
def bmapRank (array : List UInt8) (m : Int) : Option Int :=
  match get? (bits array) m with
  | some bit => some (if bit then countBits (bits array) m.toNat 0 else undefined)
  -- The test of a rank without a bit takes a stray byte and a mask of no meaning and may come out
  -- either way. No turn of the loops meets a negative rank, so that `MPI_UNDEFINED` is left; for a
  -- rank behind the bitmap they count what stands there.
  | none => if m < 0 then some undefined else none

/-- `ompi_group_translate_ranks_bmap_reverse` for one rank: the position at which its bit is
counted; behind the last byte nothing is written. -/
def bmapParentRank (m : Int) : List Bool → Nat → Int → Option Int
  | [], _, _ => none
  | bit :: bits, position, count =>
    let count := if bit then count + 1 else count
    if m = count - 1 then some position else bmapParentRank m bits (position + 1) count

end Bitmap

namespace Sparse

/-- From parent to child, for one rank. -/
def toChild (data : Sparse) (rank : Int) : Option Int :=
  if rank = procNull then some procNull
  else
    match data with
    | sporadic list => some (sporadicRank rank list 0)
    | strided o s l =>
      some (if 0 ≤ rank - o ∧ (rank - o).tmod s = 0 ∧ rank ≤ l then (rank - o).tdiv s
        else undefined)
    | bitmap array => bmapRank array rank

/-- From child to parent, for one rank. -/
def toParent (data : Sparse) (rank : Int) : Option Int :=
  if rank = procNull then some procNull
  else
    match data with
    | sporadic list => sporadicParentRank rank list 0
    | strided o s _ => some (s * rank + o)
    | bitmap array => bmapParentRank rank (bits array) 0 0

end Sparse

namespace Group

/-- `ompi_group_get_proc_ptr_raw`: goes up to the dense group. No result stands for a read outside
of a list. -/
def procPtrRaw : Group → Int → Option ProcPtr
  | dense _ procs _, rank => get? procs rank
  | sparse _ parent _ _ data, rank => do
    let rank ← if parent = empty then some undefined else data.toParent rank
    parent.procPtrRaw rank

/-- `ompi_group_get_proc_name`. -/
def procName (g : Group) (rank : Int) : Option ProcName := (g.procPtrRaw rank).map ProcPtr.name

/-- The inner loop of `ompi_group_translate_ranks` over the ranks of the second group. -/
def searchRank (g : Group) (name : ProcName) : List Nat → Option Int
  | [] => some undefined
  | proc2 :: rest => do
    let name2 ← g.procName proc2
    if compareProcs name name2 = 0 then some proc2 else g.searchRank name rest

/-- The ranks of a group, as the loops count them. -/
def ranks (g : Group) : List Nat := List.range g.procCount.toNat

/-- The generic search for one rank. -/
def translateRank (g1 g2 : Group) (rank : Int) : Option Int :=
  if rank = procNull then some procNull
  else do
    let name ← g1.procName rank
    g2.searchRank name g2.ranks

/-- `ompi_group_translate_ranks`. -/
def translateRanks (g1 : Group) (ranks1 : List Int) (g2 : Group) : Option (List Int) :=
  if g1 = empty ∨ g2 = empty then some (ranks1.map fun _ => undefined)
  else
    match g1.sparseIn g2 with
    | some data => ranks1.mapM data.toParent
    | none =>
      match g2.sparseIn g1 with
      | some data => ranks1.mapM data.toChild
      | none => ranks1.mapM (g1.translateRank g2)

end Group

end EduMpi.Ompi
