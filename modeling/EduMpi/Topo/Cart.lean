import EduMpi.Lib.Radix
import EduMpi.Ompi.CommSplit

/-! Cartesian topologies: their creation, ranks and coordinates in them, shifts and sub-grids. -/

namespace EduMpi.Topo

open Ints

/-- `mca_topo_base_comm_cart_2_2_0_t`; a period is any value but zero. -/
structure Cart where
  dims : List Int
  periods : List Int
  coords : List Int
  deriving DecidableEq, Repr

/-- A communicator with a Cartesian topology, as one of its processes has it. -/
structure CartComm where
  size : Int
  rank : Int
  cart : Cart
  deriving DecidableEq, Repr

/-- The error codes of the creation. -/
inductive CartErr where
  | error
  | dims
  | arg
  | outOfResource
  deriving DecidableEq, Repr

/-- The number of processes of a grid, as long as no dimension is below one. -/
def countProcs : List Int → Int → Option Int
  | [], nprocs => some nprocs
  | dim :: dims, nprocs => if dim ≤ 0 then none else countProcs dims (int32 (nprocs * dim))

/-- The coordinates of a rank by division and remainder; `none` divides by zero. -/
def coordsLoop : List Int → Int → Int → Option (List Int)
  | [], _, _ => some []
  | dim :: dims, remprocs, rank =>
    if dim = 0 then none
    else
      let remprocs := remprocs.tdiv dim
      if remprocs = 0 then none
      else (coordsLoop dims remprocs (rank.tmod remprocs)).map (rank.tdiv remprocs :: ·)

/-- What `mca_topo_base_cart_allocate` hands out: the processes of the grid, and the topology of
a process that is one of them. -/
structure Allocated where
  numProcs : Int
  cart : Option Cart
  deriving DecidableEq, Repr

/-- `mca_topo_base_cart_allocate`, called by the process of this rank in the group. -/
def cartAllocate (procCount myRank : Int) (dims periods : List Int) :
    Option (Except CartErr Allocated) :=
  match countProcs dims 1 with
  | none => some (.error .error)
  | some nprocs =>
    if procCount < nprocs then some (.error .dims)
    else
      let numProcs := if nprocs < procCount then nprocs else procCount
      if int32 (nprocs - 1) < myRank then some (.ok ⟨numProcs, none⟩)
      else
        (coordsLoop dims numProcs myRank).map fun coords =>
          .ok ⟨numProcs, some ⟨dims, periods, coords⟩⟩

/-- `mca_topo_base_cart_create`: a process outside the grid gets no communicator. The first
`numProcs` processes form the new one, whose own creation succeeds; a negative number of them is no
size for an array. -/
def cartCreate (procCount myRank : Int) (dims periods : List Int) :
    Option (Except CartErr (Option CartComm)) :=
  (cartAllocate procCount myRank dims periods).bind fun
    | .error err => some (.error err)
    | .ok ⟨numProcs, cart⟩ =>
      -- The topology is released before the error; a process outside the grid has none to release.
      if numProcs < 0 then cart.map fun _ => .error .outOfResource
      else some (.ok (cart.map fun cart => ⟨numProcs, myRank, cart⟩))

/-- `MPI_Cart_create`; the arguments are checked unless the build leaves that out. -/
def mpiCartCreate (paramCheck : Bool) (procCount myRank : Int) (dims periods : List Int) :
    Option (Except CartErr (Option CartComm)) :=
  let countNodes := dims.foldl (fun nodes dim => int32 (nodes * dim)) 1
  if paramCheck ∧ procCount < countNodes then some (.error .arg)
  else cartCreate procCount myRank dims periods

/-- `mca_topo_base_cart_coords`. -/
def cartCoords (comm : CartComm) (rank : Int) (maxdims : Nat) : Option (List Int) :=
  coordsLoop (comm.cart.dims.take maxdims) comm.size rank

/-- A coordinate brought into its dimension. -/
def normalize (ord dim : Int) : Int :=
  if ord < 0 ∨ dim ≤ ord then
    let ord := ord.tmod dim
    if ord < 0 then ord + dim else ord
  else ord

/-- One dimension of `mca_topo_base_cart_rank`: the rank so far and the next factor. -/
def rankStep (dim ord : Int) (state : Int × Int) : Option (Int × Int) :=
  if dim = 0 then none
  else
    some (int32 (state.1 + int32 (state.2 * normalize ord dim)), int32 (state.2 * dim))

/-- The loop of `mca_topo_base_cart_rank` over the dimensions from the last to the first. -/
def rankLoop : List Int → List Int → Option (Int × Int)
  | dim :: dims, ord :: coords => (rankLoop dims coords).bind (rankStep dim ord)
  | _, _ => some (0, 1)

/-- `mca_topo_base_cart_rank`. -/
def cartRank (comm : CartComm) (coords : List Int) : Option Int :=
  (rankLoop comm.cart.dims coords).map Prod.fst

/-- `MPI_PROC_NULL`. -/
def procNull : Int := -2

/-- What the loop of `mca_topo_base_cart_shift` carries. -/
structure ShiftState where
  ord : Int
  factor : Int
  thisdirection : Int
  thisperiod : Int
  deriving DecidableEq, Repr

/-- The loop over the dimensions up to the direction; `none` divides by zero. -/
def shiftLoop : List (Int × Int) → ShiftState → Option ShiftState
  | [], state => some state
  | (dim, period) :: rest, state =>
    if state.factor = 0 ∨ dim = 0 then none
    else shiftLoop rest ⟨state.ord.tmod state.factor, state.factor.tdiv dim, dim, period⟩

/-- The process at an ordinate of the direction, for one of the two neighbours. -/
def shiftTo (rank ord factor dim period target : Int) : Option Int :=
  if (target < 0 ∨ dim ≤ target) ∧ period = 0 then some procNull
  else if dim = 0 then none
  else
    let target := target.tmod dim
    let target := if target < 0 then int32 (target + dim) else target
    some (int32 (rank + int32 (int32 (target - ord) * factor)))

/-- The neighbours of `mca_topo_base_cart_shift`. -/
structure Neighbours where
  source : Int
  dest : Int
  deriving DecidableEq, Repr

/-- `mca_topo_base_cart_shift`. -/
def cartShift (comm : CartComm) (direction disp : Int) : Option Neighbours :=
  if disp = 0 then some ⟨comm.rank, comm.rank⟩
  else do
    let dims := (comm.cart.dims.zip comm.cart.periods).take (direction + 1).toNat
    let state ← shiftLoop dims ⟨comm.rank, comm.size, 0, 0⟩
    if state.factor = 0 then none
    else
      let ord := state.ord.tdiv state.factor
      let shifted target :=
        shiftTo comm.rank ord state.factor state.thisdirection state.thisperiod target
      let dest ← shifted (int32 (ord + disp))
      let source ← shifted (int32 (ord - disp))
      return ⟨source, dest⟩

/-- What the loop of `mca_topo_base_cart_sub` carries. -/
structure SubState where
  colour : Int
  key : Int
  colfactor : Int
  keyfactor : Int
  ndim : Nat
  deriving DecidableEq, Repr

/-- One dimension of the loop, which is dropped or kept. -/
def subStep (dim coord remain : Int) (state : SubState) : SubState :=
  if remain = 0 then
    { state with
      colour := int32 (state.colour + int32 (state.colfactor * coord))
      colfactor := int32 (state.colfactor * dim) }
  else
    { state with
      ndim := state.ndim + 1
      key := int32 (state.key + int32 (state.keyfactor * coord))
      keyfactor := int32 (state.keyfactor * dim) }

/-- The loop over the dimensions from the last to the first. -/
def subLoop : List Int → List Int → List Int → SubState
  | dim :: dims, coord :: coords, remain :: remainDims =>
    subStep dim coord remain (subLoop dims coords remainDims)
  | _, _, _ => ⟨0, 0, 1, 1, 0⟩

/-- The colour and the key a process splits with; without kept dimensions it stays alone. -/
def subInfo (comm : CartComm) (remainDims : List Int) : Int × Int :=
  let state := subLoop comm.cart.dims comm.cart.coords remainDims
  (if state.ndim = 0 then comm.rank else state.colour, state.key)

/-- The entries of the dimensions that are kept. -/
def kept {α : Type} (remainDims : List Int) (l : List α) : List α :=
  Radix.select (remainDims.map (· != 0)) l

/-- A sub-grid: its processes by their old ranks, and what one of them has of it. -/
structure SubComm where
  members : List Int
  comm : CartComm
  deriving DecidableEq, Repr

/-- `mca_topo_base_cart_sub`, by a function that lists the processes of a colour in their new order
from the colours and keys of all. -/
def cartSub (split : Int → List (Int × Int) → List Int) (infos : List (Int × Int))
    (comm : CartComm) (remainDims : List Int) : Option SubComm :=
  let members := split (subInfo comm remainDims).1 infos
  let dims := kept remainDims comm.cart.dims
  let rank := Positions.rankOf Ompi.undefined members comm.rank
  (coordsLoop dims members.length rank).map fun coords =>
    ⟨members, members.length, rank, dims, kept remainDims comm.cart.periods, coords⟩

/-- What a process passes to the split, if its creation gave it a communicator. -/
def passes (remainDims : List Int) :
    Option (Except CartErr (Option CartComm)) → Option (Int × Int)
  | some (.ok (some comm)) => some (subInfo comm remainDims)
  | _ => none

/-- The colours and keys of all processes of a topology, by their ranks. -/
def subInfos (procCount : Int) (dims periods remainDims : List Int) : List (Int × Int) :=
  (List.range procCount.toNat).filterMap fun rank : Nat =>
    passes remainDims (cartCreate procCount rank dims periods)

end EduMpi.Topo
