import EduMpi.Ddt.Walk

/-! Counting the basic elements of received bytes, and the bytes of some elements. -/

namespace EduMpi.Ddt

open Ints

/-- `dt_stack_t` of a count: the loop it belongs to, and the turns left. -/
structure ScanFrame where
  index : Option Nat
  count : Nat

/-- A scan under way: the loops around, the record, and what has been counted. -/
structure Scan (σ : Type) where
  frames : List ScanFrame
  pos : Nat
  store : σ

section Scan

variable {σ ρ : Type} (desc : List Entry) (visit : Elem → σ → Except ρ σ)

/-- One record of the loop that the counting functions share. The scan ends early with what an
element returns, or with what is counted behind the last record. -/
def scanStep (w : Scan σ) : Except (Except ρ σ) (Scan σ) :=
  match entryAt desc w.pos with
  | .endLoop _ =>
    match w.frames with
    | [] => .error (.ok w.store)
    | frame :: frames =>
      if frame.count - 1 = 0 then
        if frames.isEmpty then .error (.ok w.store)
        else .ok { w with frames := frames, pos := w.pos + 1 }
      else
        -- Back to the beginning of the loop.
        .ok { w with
          frames := { frame with count := frame.count - 1 } :: frames
          pos := match frame.index with
            | none => 0
            | some index => index + 1 }
  | .loop l => .ok { w with frames := ⟨some w.pos, l.loops⟩ :: w.frames, pos := w.pos + 1 }
  | .elem e =>
    match visit e w.store with
    | .ok store => .ok { w with pos := w.pos + 1, store := store }
    | .error result => .error (.error result)

/-- The loop for at most so many records. -/
def scanRun : Nat → Scan σ → Option (Except ρ σ)
  | 0, _ => none
  | n + 1, w =>
    match scanStep desc visit w with
    | .ok next => scanRun n next
    | .error result => some result

/-- The loop from the first record on. -/
def scan (store : σ) : Option (Except ρ σ) :=
  scanRun desc visit (budget desc 1) ⟨[⟨none, 1⟩], 0, store⟩

end Scan

/-- An element of `opal_datatype_get_element_count`: the bytes left and the elements counted. -/
def countBytes (arch : Arch) (e : Elem) : Nat × Int → Except Int (Nat × Int)
  | (iSize, nbElems) =>
    let size := arch.size e.type
    let localSize := e.count * e.blocklen * size % 2 ^ 64
    if iSize ≤ localSize then
      let whole := iSize / size
      let nbElems := int64 (nbElems + int32 whole)
      .error (if iSize - whole * size = 0 then nbElems else -1)
    else .ok (iSize - localSize, int64 (nbElems + e.count * e.blocklen))

/-- `opal_datatype_get_element_count`. -/
def getElementCount (arch : Arch) (t : Datatype) (iSize : Nat) : Option Int :=
  (scan t.desc (countBytes arch) (iSize, 0)).map fun
    | .error result => result
    | .ok (_, nbElems) => nbElems

/-- An element of `opal_datatype_set_element_count`: the elements left and the length so far. -/
def countElems (arch : Arch) (e : Elem) : Nat × Nat → Except Nat (Nat × Nat)
  | (count, length) =>
    let size := arch.size e.type
    let localLength := e.count * e.blocklen % 2 ^ 64
    if count ≤ localLength then .error ((length + count * size) % 2 ^ 64)
    else .ok (count - localLength, (length + localLength * size) % 2 ^ 64)

/-- `opal_datatype_set_element_count`: the length; a type without elements divides by zero. -/
def setElementCount (arch : Arch) (t : Datatype) (count : Nat) : Option Nat :=
  if t.nbElems = 0 then none
  else
    let length := t.size * (count / t.nbElems) % 2 ^ 64
    let left := count % t.nbElems
    if left = 0 then some length
    else
      (scan t.desc (countElems arch) (left, length)).map fun
        | .error length => length
        | .ok (_, length) => length

/-- An element of `opal_datatype_compute_ptypes`. -/
def countType (e : Elem) (ptypes : Basic → Nat) : Except Empty (Basic → Nat) :=
  .ok (Function.update ptypes e.type ((ptypes e.type + e.count * e.blocklen) % 2 ^ 64))

/-- `opal_datatype_compute_ptypes`. -/
def computePtypes (t : Datatype) : Option (Basic → Nat) :=
  (scan t.desc countType fun _ => 0).map fun
    | .ok ptypes => ptypes
    | .error never => never.elim

/-- The predefined types in the order of their ids. -/
def Basic.all : List Basic :=
  [.int1, .int2, .int4, .int8, .int16, .uint1, .uint2, .uint4, .uint8, .uint16, .float2, .float4,
    .float8, .float12, .float16, .shortFloatComplex, .floatComplex, .doubleComplex,
    .longDoubleComplex, .bool, .wchar, .long, .unsignedLong, .float128Complex]

/-- `OMPI_ERR_VALUE_OUT_OF_BOUNDS`. -/
inductive GetElementsErr where
  | valueOutOfBounds
  deriving DecidableEq, Repr

/-- The elements of the whole copies in `ompi_datatype_get_elements`. -/
def wholeElements (t : Datatype) (full : Nat) : Option Nat :=
  if full ≠ 0 then
    (computePtypes t).map fun ptypes => (Basic.all.map ptypes).sum % 2 ^ 64 * full % 2 ^ 64
  else some full

/-- The elements of the bytes behind the whole copies; the count is kept in an `int`. -/
def leftElements (arch : Arch) (t : Datatype) (whole left : Nat) :
    Option (Except GetElementsErr Nat) :=
  if 0 < left then
    (getElementCount arch t left).map fun nbElems =>
      let i := int32 nbElems
      if i = -1 then .error .valueOutOfBounds else .ok (sizeT (whole + i)).toNat
  else some (.ok whole)

/-- `ompi_datatype_get_elements`. -/
def getElements (arch : Arch) (t : Datatype) (ucount : Nat) :
    Option (Except GetElementsErr Nat) :=
  if t.size = 0 then some (.ok 0)
  else
    let full := ucount / t.size
    let left := ucount - full * t.size
    if t.flags.predefined then
      -- No leftover is supported for predefined types.
      some (if left ≠ 0 then .error .valueOutOfBounds else .ok full)
    else (wholeElements t full).bind fun whole => leftElements arch t whole left

end EduMpi.Ddt
