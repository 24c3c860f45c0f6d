import Mathlib.Data.Nat.Init

/-! Choosing the dimensions of a grid: `MPI_Dims_create`. -/

namespace EduMpi.Topo

/-- The error codes of the choice. -/
inductive DimsErr where
  | dims
  deriving DecidableEq, Repr

/-- Divides a number by a factor as long as that goes: the factors taken out, and the rest. The
number of turns is bounded by the number itself. -/
def divideOut (d : Nat) : Nat → Nat → List Nat × Nat
  | 0, num => ([], num)
  | turns + 1, num =>
    if num % d = 0 then
      let (factors, rest) := divideOut d turns (num / d)
      (d :: factors, rest)
    else ([], num)

/-- The loop over the odd candidates. -/
def oddFactors : List Nat → Nat → List Nat × Nat
  | [], num => ([], num)
  | d :: candidates, num =>
    if 1 < num then
      let (factors, rest) := divideOut d num num
      let (others, last) := oddFactors candidates rest
      (factors ++ others, last)
    else ([], num)

/-- `ceil(sqrt(num))`, which a `double` has exactly for every `int`. -/
def ceilSqrt (num : Nat) : Nat := ((List.range num).find? fun s => num ≤ s * s).getD num

/-- `getfactors`: the odd candidates are `3, 5, …` up to the square root. -/
def getfactors (num : Nat) : List Nat :=
  if num < 2 then []
  else
    let sqrtnum := ceilSqrt num
    let (twos, num) := divideOut 2 num num
    let (odds, num) := oddFactors (List.range' 3 ((sqrtnum - 1) / 2) 2) num
    twos ++ odds ++ if num ≠ 1 then [num] else []

/-- The place of the first smallest bin, from the smallest one so far. -/
def smallestBin (pmin least : Nat) : Nat → List Nat → Nat
  | _, [] => pmin
  | i, bin :: bins =>
    if bin < least then smallestBin i bin (i + 1) bins else smallestBin pmin least (i + 1) bins

/-- Assigns a factor to the smallest bin. -/
def assignFactor (bins : List Nat) (f : Nat) : List Nat :=
  match bins with
  | [] => []
  | bin :: rest => bins.modify (smallestBin 0 bin 1 rest) (· * f)

/-- One turn of the outer sorting loop: the bin in front is exchanged with every larger one. -/
def exchangePass (front : Nat) : List Nat → Nat × List Nat
  | [] => (front, [])
  | bin :: bins =>
    if front < bin then
      let (largest, rest) := exchangePass bin bins
      (largest, front :: rest)
    else
      let (largest, rest) := exchangePass front bins
      (largest, bin :: rest)

/-- The sorting loops, for so many turns of the outer one. -/
def sortBins : Nat → List Nat → List Nat
  | turns + 1, bin :: bins =>
    let (largest, rest) := exchangePass bin bins
    largest :: sortBins turns rest
  | _, bins => bins

/-- `assignnodes`, for at least one dimension. -/
def assignnodes (ndim : Nat) (pfacts : List Nat) : List Nat :=
  sortBins (ndim - 1) (pfacts.reverse.foldl assignFactor (List.replicate ndim 1))

/-- The loop over the given dimensions: the free processes and dimensions. -/
def freeLoop (nnodes : Int) : List Int → Int → Nat → Except DimsErr (Int × Nat)
  | [], freeprocs, freedims => .ok (freeprocs, freedims)
  | dim :: dims, freeprocs, freedims =>
    if dim = 0 then freeLoop nnodes dims freeprocs (freedims + 1)
    else if dim < 0 ∨ nnodes.tmod dim ≠ 0 then .error .dims
    else freeLoop nnodes dims (freeprocs.tdiv dim) freedims

/-- Puts the assigned numbers where a dimension was left open. -/
def fillDims : List Int → List Nat → List Int
  | [], _ => []
  | dim :: dims, procs =>
    if dim = 0 then (procs.headD 1 : Nat) :: fillDims dims procs.tail
    else dim :: fillDims dims procs

/-- `MPI_Dims_create`; the arguments are checked unless the build leaves that out. -/
def mpiDimsCreate (paramCheck : Bool) (nnodes : Int) (dims : List Int) :
    Except DimsErr (List Int) :=
  if paramCheck ∧ nnodes < 1 then .error .dims
  else
    match freeLoop nnodes dims nnodes 0 with
    | .error err => .error err
    | .ok (freeprocs, freedims) =>
      if freedims = 0 then if freeprocs = 1 then .ok dims else .error .dims
      else if freeprocs = 1 then .ok (dims.map fun dim => if dim = 0 then 1 else dim)
      else .ok (fillDims dims (assignnodes freedims (getfactors freeprocs.toNat)))

end EduMpi.Topo
