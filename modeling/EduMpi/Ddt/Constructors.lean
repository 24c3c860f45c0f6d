import EduMpi.Ddt.Add

/-! The datatype constructors of the MPI layer, as sequences of `opal_datatype_add`. -/

namespace EduMpi.Ddt

open Ints Datatype

/-- A block of a block constructor: how many copies, and where. -/
structure Block where
  length : Nat
  disp : Int
  deriving DecidableEq, Repr

/-- `ompi_datatype_create_contiguous`. -/
def createContiguous (count : Nat) (old : Datatype) : Datatype :=
  if count = 0 ∨ old.size = 0 then null.clone
  else construct.add old count 0 old.extent

/-- `ompi_datatype_create_vector`. -/
def createVector (count bLength : Nat) (stride : Int) (old : Datatype) : Datatype :=
  let extent := old.extent
  if count = 0 ∨ bLength = 0 then null.clone
  else if (bLength : Int) = stride ∨ count ≤ 1 then
    construct.add old (count * bLength) 0 extent
  else if bLength = 1 then construct.add old count 0 (int64 (extent * stride))
  else
    let blocks := construct.add old bLength 0 extent
    construct.add blocks count 0 (int64 (extent * stride))

/-- `ompi_datatype_create_hvector`; the product of the contiguous case is one of two `int`. -/
def createHvector (count bLength : Nat) (stride : Int) (old : Datatype) : Datatype :=
  let extent := old.extent
  if count = 0 ∨ bLength = 0 then null.clone
  else if int64 (extent * bLength) = stride ∨ count ≤ 1 then
    construct.add old (sizeT (int32 (count * bLength))).toNat 0 extent
  else if bLength = 1 then construct.add old count 0 stride
  else
    let blocks := construct.add old bLength 0 extent
    construct.add blocks count 0 stride

/-- Joins a block to the run before it when it starts where that run ends. -/
def mergeRuns (reach : Nat → Int) (run : Block) (endat : Int) : List Block → List Block
  | [] => [run]
  | block :: rest =>
    if endat = block.disp then
      mergeRuns reach { run with length := run.length + block.length }
        (int64 (endat + reach block.length)) rest
    else run :: mergeRuns reach block (int64 (block.disp + reach block.length)) rest

/-- The runs a list of blocks is added in. -/
def runsOf (reach : Nat → Int) : List Block → List Block
  | [] => []
  | block :: rest => mergeRuns reach block (int64 (block.disp + reach block.length)) rest

/-- Adds run after run to a fresh type. -/
def addRuns (old : Datatype) (place : Int → Int) (runs : List Block) : Datatype :=
  runs.foldl (fun pdt run => pdt.add old run.length (place run.disp) old.extent)
    construct

/-- The type of some runs; without any it is the null type. -/
def createRuns (old : Datatype) (place : Int → Int) : List Block → Datatype
  | [] => null.clone
  | runs => addRuns old place runs

/-- `ompi_datatype_create_indexed`: displacements count extents. -/
def createIndexed (blocks : List Block) (old : Datatype) : Datatype :=
  if old.size = 0 then null.clone
  else
    createRuns old (fun disp => int64 (disp * old.extent))
      (runsOf (fun length => length) (blocks.filter (·.length ≠ 0)))

/-- `ompi_datatype_create_hindexed`: displacements count bytes. -/
def createHindexed (blocks : List Block) (old : Datatype) : Datatype :=
  if old.size = 0 then null.clone
  else
    createRuns old id
      (runsOf (fun length => length * old.extent) (blocks.filter (·.length ≠ 0)))

/-- `ompi_datatype_create_indexed_block`: every block has the same length. -/
def createIndexedBlock (bLength : Nat) (displacements : List Int) (old : Datatype) : Datatype :=
  if bLength = 0 then null.clone
  else
    createRuns old (fun disp => int64 (disp * old.extent))
      (runsOf (fun length => length) (displacements.map (⟨bLength, ·⟩)))

/-- `ompi_datatype_create_hindexed_block`. -/
def createHindexedBlock (bLength : Nat) (displacements : List Int) (old : Datatype) : Datatype :=
  if bLength = 0 then null.clone
  else
    createRuns old id
      (runsOf (fun length => length * old.extent) (displacements.map (⟨bLength, ·⟩)))

/-- A field of a struct; the type is a handle, compared as a pointer. -/
structure Field where
  length : Nat
  disp : Int
  type : Nat
  deriving DecidableEq, Repr

/-- Joins a field to the run before it when it continues it with the same type. -/
def mergeFields (types : Nat → Datatype) (run : Field) (endto : Int) : List Field → List Field
  | [] => [run]
  | field :: rest =>
    if field.type = run.type ∧ field.disp = endto then
      let run := { run with length := run.length + field.length }
      mergeFields types run (int64 (run.disp + run.length * (types run.type).extent)) rest
    else
      run :: mergeFields types field
        (int64 (field.disp + (types field.type).extent * field.length)) rest

/-- The runs the fields of a struct are added in, from the first one that is not empty. -/
def fieldRuns (types : Nat → Datatype) (fields : List Field) : List Field :=
  match fields.dropWhile (·.length = 0) with
  | [] => []
  | field :: rest =>
    mergeFields types field
      (int64 (field.disp + (types field.type).extent * field.length)) rest

/-- `ompi_datatype_create_struct`. -/
def createStruct (types : Nat → Datatype) (fields : List Field) : Datatype :=
  match fieldRuns types fields with
  | [] => null.clone
  | runs =>
    runs.foldl (fun pdt run =>
      pdt.add (types run.type) run.length run.disp (types run.type).extent) construct

end EduMpi.Ddt
