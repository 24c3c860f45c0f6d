import EduMpi.Lib.Sorting
import EduMpi.Ompi.GroupIncl

/-! Splitting a communicator by colors and keys. -/

namespace EduMpi.Ompi

open Ints

/-- `rankkeycompare`, on an old rank and a key. -/
def rankkeycompare (a b : Int × Int) : Int :=
  if a.2 < b.2 then -1
  else if b.2 < a.2 then 1
  else if a.2 = b.2 ∧ a.1 < b.1 then -1
  else if a.2 = b.2 ∧ a.1 = b.1 then 0
  else if a.2 = b.2 ∧ b.1 < a.1 then 1
  else 0

/-- How many have a color. -/
def colorCount (color : Int) (results : List (Int × Int)) : Int :=
  results.countP fun info => info.1 = color

/-- The ranks and keys of those with a color, from the rank reached on. -/
def ofColor (color : Int) (i : Int) : List (Int × Int) → List (Int × Int)
  | [] => []
  | info :: rest =>
    if info.1 = color then (i, info.2) :: ofColor color (i + 1) rest
    else ofColor color (i + 1) rest

/-- `qsort` of the C library, on the pairs that are sorted here. -/
abbrev QSort := (Int × Int → Int × Int → Int) → List (Int × Int) → List (Int × Int)

/-- The old ranks of those with a color, in their new order. -/
def splitRanks (qsort : QSort) (color : Int) (results : List (Int × Int)) : List Int :=
  let sorted := ofColor color 0 results
  (if 1 < colorCount color results then qsort rankkeycompare sorted else sorted).map Prod.fst

/-- The communicator that a split makes. -/
structure SplitComm where
  localGroup : Group
  remoteGroup : Group
  myRank : Int
  inter : Bool
  deriving DecidableEq

inductive SplitRc where
  | success | errBadParam | other (code : Int)
  deriving DecidableEq

/-- The other side of an inter-communicator, with the colors and keys gathered from it. -/
structure RemoteSide where
  env : Setting
  group : Group
  results : List (Int × Int)

/-- `ompi_comm_set` in a split: the groups of the listed ranks. Without a remote side the group is
its own remote group. -/
def splitGroups (qsort : QSort) (env : Setting) (group : Group) (remote : Option RemoteSide)
    (color : Int) (lranks : List Int) : Option SplitComm :=
  match remote with
  | none => do
    let localGroup ← group.incl env lranks
    return ⟨localGroup, localGroup, localGroup.myRank, false⟩
  | some side => do
    -- The size of the table is computed in `int`.
    guard (2 * side.group.procCount ≤ intMax)
    let localGroup ← group.incl env lranks
    let remoteGroup ← side.group.incl side.env (splitRanks qsort color side.results)
    return ⟨localGroup, remoteGroup, localGroup.myRank, true⟩

/-- Whether a process gets no communicator. -/
def splitsOff (remote : Option RemoteSide) (color : Int) : Bool :=
  color == undefined || match remote with
    | none => false
    | some side => colorCount color side.results == 0

/-- `ompi_comm_split_with_info`, with the code that finding a context id and the activation return;
no result stands for undefined behaviour. -/
def commSplit (qsort : QSort) (env : Setting) (group : Group) (remote : Option RemoteSide)
    (color : Int) (results : List (Int × Int)) (rc : SplitRc) :
    Option (SplitRc × Option SplitComm) := do
  guard (2 * group.procCount ≤ intMax)
  if colorCount color results = 0 then return (.errBadParam, none)
  let newcomp ← splitGroups qsort env group remote color (splitRanks qsort color results)
  return (rc, if splitsOff remote color then none else some newcomp)

end EduMpi.Ompi
