import EduMpi.Ompi.Group

/-! Making a group from listed ranks: the size of each storage method, and the constructors. -/

namespace EduMpi.Ompi

open Ints Positions

section Sizes

/-- `ompi_group_calc_plist`. -/
def calcPlist (ranks : List Int) : Int := int32 (8 * ranks.length)

/-- Whether neighbours differ by a fixed number. -/
def stepsBy (s : Int) : List Int → Bool
  | a :: b :: rest => b - a == s && stepsBy s (b :: rest)
  | _ => true

/-- `check_stride`: the common difference, or -1. -/
def checkStride (incl : List Int) : Int :=
  let s := match incl with
    | a :: b :: _ => b - a
    | _ => 1
  if s < 0 then -1 else if stepsBy s incl then s else -1

/-- `ompi_group_calc_strided`. -/
def calcStrided (ranks : List Int) : Int := if checkStride ranks = -1 then -1 else 12

/-- The loop that counts the runs. It starts with what stands in memory before the list. -/
def countRuns (previous : Int) (l : Nat) : List Int → Nat
  | [] => l
  | rank :: rest =>
    countRuns rank (if rank = previous + 1 then (if l = 0 then l + 1 else l) else l + 1) rest

/-- `ompi_group_calc_sporadic`. -/
def calcSporadic (before : Int) (ranks : List Int) : Int := int32 (8 * countRuns before 0 ranks)

/-- `ompi_group_div_ceil`. -/
def divCeil (num den : Int) : Int :=
  if num.tmod den = 0 then num.tdiv den else num.tdiv den + 1

/-- `check_ranks`: whether no rank is followed by a smaller one. -/
def checkRanks : List Int → Bool
  | a :: b :: rest => !(b < a) && checkRanks (b :: rest)
  | _ => true

/-- `ompi_group_calc_bmap`. -/
def calcBmap (origSize : Int) (ranks : List Int) : Int :=
  if checkRanks ranks then divCeil origSize 8 else -1

/-- The loop of `ompi_group_minloc`. -/
def minlocFrom (min : Int) (index i : Nat) : List Int → Nat
  | [] => index
  | x :: rest =>
    if x < min ∧ x ≠ -1 then minlocFrom x i (i + 1) rest else minlocFrom min index (i + 1) rest

/-- `ompi_group_minloc`. -/
def minloc (list : List Int) : Nat := minlocFrom (list.headD 0) 0 0 list

end Sizes

/-- What the constructors find around them: the local process, whether sparse storage is used, what
stands in memory before the list of ranks, and the address of the new group. -/
structure Setting where
  me : ProcName
  sparse : Bool
  before : Int
  addr : Nat

/-- `ompi_set_group_rank` on a dense group: a sentinel is no pointer to the local process. -/
def setGroupRank (me : ProcName) (procs : List ProcPtr) : Int := rankOf undefined procs (.proc me)

/-- The runs of a list of ranks, from the one begun on. -/
def runsFrom (run : Run) (previous : Int) : List Int → List Run
  | [] => [run]
  | rank :: rest =>
    if rank = previous + 1 then runsFrom { run with length := run.length + 1 } rank rest
    else run :: runsFrom ⟨rank, 1⟩ rank rest

/-- The runs that `ompi_group_incl_spor` stores. -/
def runs : List Int → List Run
  | [] => []
  | rank :: rest => runsFrom ⟨rank, 1⟩ rank rest

/-- Sets the bits of some ranks. -/
def setBits : List Int → List UInt8 → Option (List UInt8)
  | [], array => some array
  | rank :: rest, array =>
    if rank < 0 then none
    else do
      let byte ← get? array (rank.tdiv 8)
      setBits rest
        (array.set (rank.tdiv 8).toNat (byte ||| 1 <<< UInt8.ofNat (rank.tmod 8).toNat))

namespace Group

variable (env : Setting) (g : Group)

/-- The rank of the local process in a new group, from its rank in the parent group. -/
def withMyRank (count : Int) (data : Sparse) : Option Group := do
  let fresh := sparse env.addr g count undefined data
  let ranks ← g.translateRanks [g.myRank] fresh
  return sparse env.addr g count (ranks.headD undefined) data

/-- `ompi_group_incl_plist`. -/
def inclPlist (ranks : List Int) : Option Group :=
  if ranks = [] then some empty
  else do
    let procs ← ranks.mapM g.procPtrRaw
    return dense env.addr procs (if g.myRank ≠ undefined then setGroupRank env.me procs else undefined)

/-- `ompi_group_incl_strided`. -/
def inclStrided (ranks : List Int) : Option Group :=
  if ranks = [] then some empty
  else g.withMyRank env ranks.length
    (.strided (ranks.headD 0) (checkStride ranks) (ranks.getLastD 0))

/-- `ompi_group_incl_spor`: there is room for as many runs as were counted. -/
def inclSpor (ranks : List Int) : Option Group :=
  if ranks = [] then some empty
  else if countRuns env.before 0 ranks < (runs ranks).length then none
  else g.withMyRank env ((runs ranks).map Run.length).sum (.sporadic (runs ranks))

/-- `ompi_group_incl_bmap`. -/
def inclBmap (ranks : List Int) : Option Group :=
  if ranks = [] then some empty
  else do
    let array ← setBits ranks (List.replicate (divCeil g.procCount 8).toNat 0)
    g.withMyRank env ranks.length (.bitmap array)

/-- `ompi_group_incl`; no result stands for undefined behaviour. -/
def incl (ranks : List Int) : Option Group :=
  let method :=
    if env.sparse then minloc [calcPlist ranks, calcStrided ranks, calcSporadic env.before ranks,
      calcBmap g.procCount ranks]
    else 0
  match method with
  | 0 => g.inclPlist env ranks
  | 1 => g.inclStrided env ranks
  | 2 => g.inclSpor env ranks
  | _ => g.inclBmap env ranks

end Group

end EduMpi.Ompi
