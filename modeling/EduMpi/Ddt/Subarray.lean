import EduMpi.Ddt.Bounds
import EduMpi.Ddt.BuiltTypes

/-! `ompi_datatype_create_subarray` selects a box of an array exactly when its adds fit. -/

namespace EduMpi.Ddt

open Ints Strided Datatype List

/-- One dimension of an array, with the part of it that is selected. -/
structure Dim where
  size : Nat
  subsize : Nat
  start : Nat
  int : size < 2 ^ 31 := by decide
  some : 1 ≤ subsize := by decide
  inside : start + subsize ≤ size := by decide

/-- `MPI_ORDER_C` and `MPI_ORDER_FORTRAN`. -/
inductive Order where
  | c
  | fortran

/-- The dimensions as the loop goes through them, the one of adjacent elements first. -/
def Order.fastest : Order → List Dim → List Dim
  | .c, dims => dims.reverse
  | .fortran, dims => dims

/-- The loop over the dimensions behind the first two, with its `last_type`, `size` and `displ`. -/
def nestDims (extent : Int) : List Dim → Datatype → Int → Int → Datatype × Int × Int
  | [], last, size, displ => (last, size, displ)
  | dim :: rest, last, size, displ =>
    nestDims extent rest (createHvector dim.subsize 1 (int64 (size * extent)) last)
      (int64 (size * dim.size)) (int64 (displ + size * dim.start))

/-- The code behind the label `replace_subarray_type`. -/
def replaceSubarrayType (extent : Int) : Datatype × Int × Int → Datatype
  | (last, size, displ) =>
    (construct.add last 1 (int64 (displ * extent)) (int64 (size * extent))).resize 0
      (int64 (size * extent))

/-- `ompi_datatype_create_subarray`. -/
def createSubarray (dims : List Dim) (order : Order) (old : Datatype) : Datatype :=
  match order.fastest dims with
  | [] => null.clone
  | [dim] =>
    replaceSubarrayType old.extent (createContiguous dim.subsize old, dim.size, dim.start)
  | dim :: next :: rest =>
    replaceSubarrayType old.extent
      (nestDims old.extent rest (createVector next.subsize dim.subsize dim.size old)
        (int64 (dim.size * next.size)) (int64 (dim.start + next.start * dim.size)))

/-- Where the elements of the box stand in the array, counted in elements, in storage order. -/
def box : List Dim → List Int
  | [] => [0]
  | dim :: rest =>
    (box rest).flatMap fun row =>
      (range dim.subsize).map fun j : Nat => row * dim.size + (dim.start + j)

/-- The type map of the box, for elements with this type map at this distance. -/
def selected (extent : Offset) (dims : List Dim) (m : List Slot) : List Slot :=
  (box dims).flatMap fun place : Int => shift ((place : Offset) * extent) m

/-- The number of elements of the whole array. -/
def elements (dims : List Dim) : Int := (dims.map fun dim => (dim.size : Int)).prod

/-- Whether the adds of the loop and of the last step fit. -/
def NestFits (arch : Arch) (extent : Int) : List Dim → Datatype → Int → Prop
  | [], last, size => last.Fits arch 1 1 (int64 (size * extent))
  | dim :: rest, last, size =>
    (Call.hvector dim.subsize 1 (int64 (size * extent)) 0).Fits arch (fun _ => last) ∧
      NestFits arch extent rest (createHvector dim.subsize 1 (int64 (size * extent)) last)
        (int64 (size * dim.size))

/-- Whether all adds of a call fit; an array of no dimension is one element, the null type none. -/
def SubarrayFits (arch : Arch) (old : Datatype) (m : List Slot) : List Dim → Prop
  | [] => m = [] ∧ old.extent = 0
  | [dim] =>
    (Call.contiguous dim.subsize 0).Fits arch (fun _ => old) ∧
      NestFits arch old.extent [] (createContiguous dim.subsize old) dim.size
  | dim :: next :: rest =>
    (Call.vector next.subsize dim.subsize dim.size 0).Fits arch (fun _ => old) ∧
      NestFits arch old.extent rest (createVector next.subsize dim.subsize dim.size old)
        (int64 (dim.size * next.size))

section Boxes

variable {extent e : Offset} {dim : Dim} {rest : List Dim} {m : List Slot}

@[simp]
theorem selected_nil : selected extent [] m = m := by
  simp [selected, box]

/-- A box is a box of the slower dimensions, of rows as long as the array is. -/
theorem selected_cons :
    selected extent (dim :: rest) m
      = selected (dim.size * extent) rest
          (shift (dim.start * extent) (copies dim.subsize extent m)) := by
  simp only [selected, box, flatMap_assoc, flatMap_map]
  refine flatMap_congr fun row _ => ?_
  simp only [copies, shift, map_flatMap, map_map, Function.comp_def]
  refine flatMap_congr fun j _ => map_congr_left fun slot _ => ?_
  push_cast
  ring_nf

/-- The same step with the running size and place, which the code counts in elements. -/
theorem selected_step (dim : Dim) (rest : List Dim) (extent size displ : Int) :
    selected (size * extent) (dim :: rest) (shift (displ * extent) m)
      = selected ((int64 (size * dim.size) : Int) * extent) rest
          (shift ((int64 (displ + size * dim.start) : Int) * extent)
            (copies dim.subsize (size * extent) m)) := by
  rw [selected_cons, ← shift_copies, shift_shift]
  simp only [cast_int64]
  push_cast
  ring_nf

theorem length_selected :
    (selected extent rest m).length = (rest.map Dim.subsize).prod * m.length := by
  induction rest generalizing extent m with
  | nil => simp
  | cons dim rest ih =>
    rw [selected_cons, ih, length_shift, length_copies, map_cons, prod_cons]
    ring

end Boxes

theorem int64_mul (x y : Int) : int64 (int64 x * y) = int64 (x * y) := by
  have kept : int64 x % 2 ^ 64 = x % 2 ^ 64 := by
    unfold int64
    omega
  have same : int64 x * y % 2 ^ 64 = x * y % 2 ^ 64 := by
    rw [Int.mul_emod, kept, ← Int.mul_emod]
  simp only [int64] at same ⊢
  omega

theorem int64_eq_iff {x : Int} : int64 x = x ↔ InRange x := by
  simp only [int64, InRange]
  omega

section Selects

variable {arch : Arch} {last old : Datatype} {m wanted : List Slot} {fits : Prop} {extent : Int}

theorem contiguous_stackable (good : WellFormed arch old m) {count : Nat} (some : 0 < count) :
    Stackable arch (createContiguous count old) (copies count (old.extent : Offset) m)
      ((Call.contiguous count 0).Fits arch (fun _ => old)) := by
  have correct := contiguous_correct good count
  rw [Call.Right, Call.typeMap, placed_eq (d := 0) (e := old.extent) (by simp), shift_zero] at correct
  refine ⟨correct, ?_⟩
  unfold createContiguous
  split
  · exact ⟨[], (null_userMade.wellFormed_nil rfl rfl).toDescribes, Nat.zero_le _⟩
  · exact (single_stackable good some).short

/-- A vector of single blocks repeats its type at the stride. -/
theorem Stackable.hvector (inner : Stackable arch last wanted fits) (dim : Dim) (stride : Int) :
    Stackable arch (createHvector dim.subsize 1 stride last)
      (copies dim.subsize (stride : Offset) wanted)
      (fits ∧ (Call.hvector dim.subsize 1 stride 0).Fits arch (fun _ => last)) := by
  have inside := dim.inside
  have int := dim.int
  have some := dim.some
  have nonzero : dim.subsize ≠ 0 := by omega
  -- The number of rows is an `int` itself, so the product with the one block is exact.
  have passed : (sizeT (int32 ((dim.subsize : Int) * ((1 : Nat) : Int)))).toNat = dim.subsize := by
    rw [Nat.cast_one, mul_one, int32_natCast (by omega), sizeT_of_mem (by omega) (by omega)]
    omega
  simp only [createHvector, Call.Fits, Call.BlocksFit, passed, nonzero, one_ne_zero, false_or,
    if_false, if_true, Nat.mul_one]
  split
  · rename_i contiguous
    have joined : copies dim.subsize (stride : Offset) wanted
        = copies dim.subsize (last.extent : Offset) wanted := by
      rcases contiguous with rfl | one
      · simp
      · have : dim.subsize = 1 := by omega
        simp [this]
    simpa [joined] using inner.add some 0 last.extent
  · simpa using inner.add some 0 stride

/-- Every turn of the loop adds a dimension to the box. -/
theorem nestDims_stackable (extent : Int) (rest : List Dim) (size displ : Int)
    (inner : Stackable arch last wanted fits) :
    let made := nestDims extent rest last size displ
    Stackable arch (construct.add made.1 1 (int64 (made.2.2 * extent)) (int64 (made.2.1 * extent)))
      (selected (size * extent) rest (shift (displ * extent) wanted))
      (fits ∧ NestFits arch extent rest last size) := by
  induction rest generalizing last wanted fits size displ with
  | nil =>
    simpa [nestDims, NestFits] using
      inner.add one_pos (int64 (displ * extent)) (int64 (size * extent))
  | cons dim rest ih =>
    have outer := inner.hvector dim (int64 (size * extent))
    rw [cast_int64, Int.cast_mul] at outer
    have step := ih (int64 (size * dim.size)) (int64 (displ + size * dim.start)) outer
    rw [selected_step]
    simpa only [nestDims, NestFits, and_assoc] using step

theorem nestDims_size (extent : Int) (rest : List Dim) (last : Datatype) (size displ : Int) :
    int64 ((nestDims extent rest last size displ).2.1 * extent)
      = int64 (size * elements rest * extent) := by
  induction rest generalizing last size displ with
  | nil => simp [nestDims, elements]
  | cons dim rest ih =>
    rw [nestDims, ih, mul_assoc, int64_mul, elements, elements, map_cons, prod_cons]
    ring_nf

/-- The last step only moves what was built and sets the bounds. -/
theorem replaceSubarrayType_iff {made : Datatype × Int × Int} {total : Int}
    (size : int64 (made.2.1 * extent) = int64 total)
    (built : Stackable arch
      (construct.add made.1 1 (int64 (made.2.2 * extent)) (int64 (made.2.1 * extent)))
      wanted fits) :
    (replaceSubarrayType extent made).typeMap arch = wanted ∧
        (replaceSubarrayType extent made).lb = 0 ∧
        (replaceSubarrayType extent made).extent = total ↔
      fits ∧ InRange total := by
  obtain ⟨last, array, displ⟩ := made
  have bounds : (replaceSubarrayType extent (last, array, displ)).extent = int64 total := by
    rw [← size]
    simp only [replaceSubarrayType, Datatype.extent, resize, int64]
    omega
  rw [bounds, int64_eq_iff]
  exact and_congr built.iff (and_iff_right rfl)

end Selects

/--
Subarray types.

For a base type whose adds fit, the type built is the box of the array, with the bounds of the
whole array, exactly when the adds of the call fit and the array has an extent at all.
-/
theorem subarray_selects_iff {arch : Arch} {old : Datatype} {m : List Slot}
    (built : Built arch old m) (dims : List Dim) (order : Order) :
    (createSubarray dims order old).typeMap arch = selected old.extent (order.fastest dims) m ∧
        (createSubarray dims order old).lb = 0 ∧
        (createSubarray dims order old).extent = elements dims * old.extent ↔
      SubarrayFits arch old m (order.fastest dims) ∧ InRange (elements dims * old.extent) := by
  have good := built.wellFormed
  have total : elements dims = elements (order.fastest dims) := by
    cases order with
    | c => exact ((reverse_perm dims).map _).prod_eq.symm
    | fortran => rfl
  rw [total]
  unfold createSubarray
  -- The cases are those of the number of dimensions in the source.
  match order.fastest dims with
  | [] =>
    have zero : null.clone.extent = 0 := rfl
    have one : elements [] = 1 := rfl
    have bound : null.clone.lb = 0 := rfl
    simp only [zero, one, bound, selected_nil, SubarrayFits, one_mul, true_and, eq_comm]
    exact ⟨fun both => ⟨both, by simp [← both.2, InRange]⟩, And.left⟩
  | [dim] =>
    have row := nestDims_stackable old.extent [] dim.size dim.start
      (contiguous_stackable good dim.some)
    refine replaceSubarrayType_iff (by simp [elements]) ?_
    simpa [selected_cons, nestDims, SubarrayFits] using row
  | dim :: next :: rest =>
    have size := nestDims_size old.extent rest
      (createVector next.subsize dim.subsize dim.size old) (int64 (dim.size * next.size))
      (int64 (dim.start + next.start * dim.size))
    refine replaceSubarrayType_iff (size.trans ?_) ?_
    · rw [mul_assoc, int64_mul]
      simp only [elements, map_cons, prod_cons, mul_assoc]
    · have rows := nestDims_stackable old.extent rest (int64 (dim.size * next.size))
        (int64 (dim.start + next.start * dim.size))
        (vector_stackable good next.subsize dim.subsize dim.size)
      rw [Call.typeMap, flatMap_placed_eq (s := (old.extent : Offset) * dim.size)
        (e := (old.extent : Offset))
        (by intro i j; push_cast; ring)] at rows
      have step := selected_step (m := copies dim.subsize (old.extent : Offset) m) next rest
        old.extent dim.size dim.start
      rw [Int.cast_natCast, Int.cast_natCast, ← selected_cons] at step
      rw [step, mul_comm (dim.size : Int) next.start, mul_comm (dim.size : Offset)]
      exact rows

/-- The middle two elements of the last two rows of three, of `int`. -/
theorem subarray_of_int4 :
    SubarrayFits lp64 (.ofBasic lp64 .int4) [(.int4, 0)]
        (Order.c.fastest [.mk 3 2 1, .mk 4 2 1]) ∧
      InRange (elements [.mk 3 2 1, .mk 4 2 1] * (ofBasic lp64 .int4).extent) :=
  (subarray_selects_iff (.basic .int4) _ .c).mp (by decide +kernel)

/-- All rows and columns of the first of two planes of bytes, the planes being the fastest. -/
def firstPlane : List Dim := [.mk 65537 65537 0, .mk 65537 65537 0, .mk 2 1 0]

/-- The product of the two counts wraps around, and most elements of the plane are missing. -/
theorem subarray_misses_elements :
    (createSubarray firstPlane .c (.ofBasic lp64 .int1)).typeMap lp64
      ≠ selected ((ofBasic lp64 .int1).extent) (Order.c.fastest firstPlane) [(.int1, 0)] := by
  intro same
  have only : (createSubarray firstPlane .c (.ofBasic lp64 .int1)).desc
      = [.elem ⟨.int1, 131073, 1, 2, 0⟩] := by decide +kernel
  have lengths := congrArg List.length same
  rw [length_typeMap_single only, length_selected] at lengths
  exact absurd lengths (by decide)

end EduMpi.Ddt
