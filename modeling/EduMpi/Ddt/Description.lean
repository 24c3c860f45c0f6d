import EduMpi.Lib.Ints
import EduMpi.Lib.Strided
import Mathlib.Data.BitVec

/-! Datatype descriptions: elements and loops in one array, and the type map they stand for. -/

namespace EduMpi.Ddt

open Ints Strided

/-- The predefined types, in the order of their ids. -/
inductive Basic where
  | int1 | int2 | int4 | int8 | int16
  | uint1 | uint2 | uint4 | uint8 | uint16
  | float2 | float4 | float8 | float12 | float16
  | shortFloatComplex | floatComplex | doubleComplex | longDoubleComplex
  | bool | wchar | long | unsignedLong | float128Complex
  deriving DecidableEq, Repr

/-- What the build fixes about the predefined types. -/
structure Arch where
  size : Basic → Nat
  align : Basic → Nat
  size_pos : ∀ b, 0 < size b
  align_pos : ∀ b, 0 < align b
  size_uint1 : size .uint1 = 1

/-- Sizes of the predefined types on a 64-bit machine with 8-byte `long`. -/
def lp64Size : Basic → Nat
  | .int1 | .uint1 | .bool => 1
  | .int2 | .uint2 | .float2 => 2
  | .int4 | .uint4 | .float4 | .shortFloatComplex | .wchar => 4
  | .int8 | .uint8 | .float8 | .floatComplex | .long | .unsignedLong => 8
  | .float12 => 12
  | .int16 | .uint16 | .float16 | .doubleComplex => 16
  | .longDoubleComplex | .float128Complex => 32

/-- Alignments of the predefined types on a 64-bit machine with 8-byte `long`. -/
def lp64Align : Basic → Nat
  | .int1 | .uint1 | .bool => 1
  | .int2 | .uint2 | .float2 | .shortFloatComplex => 2
  | .int4 | .uint4 | .float4 | .wchar | .floatComplex | .float12 => 4
  | .int8 | .uint8 | .float8 | .long | .unsignedLong | .doubleComplex => 8
  | .int16 | .uint16 | .float16 | .longDoubleComplex | .float128Complex => 16

theorem lp64Size_pos (b : Basic) : 0 < lp64Size b := by
  cases b <;> decide

theorem lp64Align_pos (b : Basic) : 0 < lp64Align b := by
  cases b <;> decide

/-- A 64-bit machine with 8-byte `long`. -/
def lp64 : Arch where
  size := lp64Size
  align := lp64Align
  size_pos := lp64Size_pos
  align_pos := lp64Align_pos
  size_uint1 := rfl

/-- `ddt_elem_desc`: `count` blocks of `blocklen` elements of one predefined type. -/
structure Elem where
  type : Basic
  count : Nat
  blocklen : Nat
  extent : Int
  disp : Int
  deriving DecidableEq, Repr

/-- `ddt_loop_desc`: the start of a loop, with the flag that says its content has no gap. -/
structure Loop where
  contiguous : Bool
  loops : Nat
  items : Nat
  extent : Int
  deriving DecidableEq, Repr

/-- `ddt_endloop_desc`: the end of a loop, with the bytes of one turn. -/
structure EndLoop where
  items : Nat
  size : Nat
  firstElemDisp : Int
  deriving DecidableEq, Repr

/-- `dt_elem_desc`: one record of a description. -/
inductive Entry where
  | elem (e : Elem)
  | loop (l : Loop)
  | endLoop (l : EndLoop)
  deriving DecidableEq, Repr

/-- A displacement as the machine adds it to an address. -/
abbrev Offset := BitVec 64

/-- An element of a type map: a predefined type at a displacement. -/
abbrev Slot := Basic × Offset

/-- The part of the type map an element stands for. -/
def Elem.slots (arch : Arch) (e : Elem) : List Slot :=
  shift (e.disp : Offset)
    (copies e.count (e.extent : Offset)
      (copies e.blocklen (arch.size e.type : Offset) [(e.type, 0)]))

/-- Reads one record from the right: an end opens a body, the start of the loop repeats it. -/
def expandEntry (arch : Arch) : Entry → List (List Slot) → List (List Slot)
  | .elem e, top :: rest => (e.slots arch ++ top) :: rest
  | .endLoop _, stack => [] :: stack
  | .loop l, body :: after :: rest => (copies l.loops (l.extent : Offset) body ++ after) :: rest
  | _, stack => stack

/-- The type map of a description: its loops, counts and block lengths written out. -/
def expand (arch : Arch) (desc : List Entry) : List Slot :=
  (desc.foldr (expandEntry arch) [[]]).headD []

/-- A well-nested description and its type map. -/
inductive Denotes (arch : Arch) : List Entry → List Slot → Prop where
  | nil : Denotes arch [] []
  | elem {rest m} (e : Elem) : Denotes arch rest m →
      Denotes arch (.elem e :: rest) (e.slots arch ++ m)
  | loop {body rest b m} (l : Loop) (f : EndLoop) : Denotes arch body b → Denotes arch rest m →
      Denotes arch (.loop l :: body ++ .endLoop f :: rest)
        (copies l.loops (l.extent : Offset) b ++ m)

section Denotes

variable {arch : Arch} {desc others : List Entry} {m l : List Slot}

/-- Reading a well-nested part puts its type map in front of what follows. -/
theorem Denotes.foldr_eq (denotes : Denotes arch desc m) (top : List Slot)
    (rest : List (List Slot)) :
    desc.foldr (expandEntry arch) (top :: rest) = (m ++ top) :: rest := by
  induction denotes generalizing top rest with
  | nil => rfl
  | elem e _ ih => simp [ih, expandEntry]
  | loop l f _ _ body after =>
    -- The end pushes an empty body, which the body fills and the start consumes.
    simp [after, expandEntry, body]

theorem Denotes.expand_eq (denotes : Denotes arch desc m) : expand arch desc = m := by
  simp [expand, denotes.foldr_eq]

theorem Denotes.unique (one : Denotes arch desc m) (two : Denotes arch desc l) : m = l :=
  one.expand_eq.symm.trans two.expand_eq

theorem Denotes.append (front : Denotes arch desc m) (back : Denotes arch others l) :
    Denotes arch (desc ++ others) (m ++ l) := by
  induction front with
  | nil => exact back
  | elem e _ ih => simpa using ih.elem e
  | loop loop f body _ _ ih => simpa using body.loop loop f ih

theorem Denotes.single (arch : Arch) (e : Elem) : Denotes arch [.elem e] (e.slots arch) := by
  simpa using (@Denotes.nil arch).elem e

end Denotes

/-- The flags of a datatype. -/
structure Flags where
  predefined : Bool
  committed : Bool
  contiguous : Bool
  noGaps : Bool
  userLb : Bool
  userUb : Bool
  data : Bool
  restricted : Bool
  deriving DecidableEq, Repr

/-- The id of a datatype; only markers and predefined types have one of their own. -/
inductive Id where
  | derived
  | lb
  | ub
  | basic (b : Basic)
  deriving DecidableEq, Repr

/-- `opal_datatype_t`. -/
structure Datatype where
  flags : Flags
  id : Id
  size : Nat
  trueLb : Int
  trueUb : Int
  lb : Int
  ub : Int
  nbElems : Nat
  align : Nat
  loops : Nat
  desc : List Entry
  optDesc : List Entry
  deriving DecidableEq, Repr

namespace Datatype

/-- `ub - lb`, as every caller computes it. -/
def extent (t : Datatype) : Int := int64 (t.ub - t.lb)

/-- The type map the description of a datatype stands for. -/
def typeMap (arch : Arch) (t : Datatype) : List Slot := expand arch t.desc

/-- `opal_datatype_construct`. -/
def construct : Datatype where
  flags := ⟨false, false, true, false, false, false, false, false⟩
  id := .derived
  size := 0
  trueLb := 2 ^ 63 - 1
  trueUb := -2 ^ 63
  lb := 2 ^ 63 - 1
  ub := -2 ^ 63
  nbElems := 0
  align := 1
  loops := 0
  desc := []
  optDesc := []

/-- A predefined type: one element of itself. -/
def ofBasic (arch : Arch) (b : Basic) : Datatype where
  flags := ⟨true, true, true, true, false, false, true, false⟩
  id := .basic b
  size := arch.size b
  trueLb := 0
  trueUb := arch.size b
  lb := 0
  ub := arch.size b
  nbElems := 1
  align := arch.align b
  loops := 0
  desc := [.elem ⟨b, 1, 1, arch.size b, 0⟩]
  optDesc := [.elem ⟨b, 1, 1, arch.size b, 0⟩]

/-- The markers of the lower and the upper bound. -/
def marker (id : Id) : Datatype where
  flags := ⟨true, false, false, false, false, false, false, false⟩
  id := id
  size := 0
  trueLb := 0
  trueUb := 0
  lb := 0
  ub := 0
  nbElems := 1
  align := 0
  loops := 0
  desc := []
  optDesc := []

/-- `ompi_mpi_datatype_null`, the type without data. -/
def null : Datatype where
  flags := ⟨true, false, true, false, false, false, false, false⟩
  id := .derived
  size := 0
  trueLb := 0
  trueUb := 0
  lb := 0
  ub := 0
  nbElems := 1
  align := 0
  loops := 0
  desc := []
  optDesc := []

/-- `opal_datatype_clone`: a copy that counts as user-made. -/
def clone (t : Datatype) : Datatype :=
  { t with flags.predefined := false }

/-- `opal_datatype_resize`. -/
def resize (t : Datatype) (lb extent : Int) : Datatype :=
  { t with
    lb
    ub := int64 (lb + extent)
    flags := { t.flags with
      noGaps := extent == int64 t.size && t.flags.contiguous
      userLb := true
      userUb := true } }

end Datatype

end EduMpi.Ddt
