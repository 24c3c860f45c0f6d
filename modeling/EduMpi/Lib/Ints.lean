import Mathlib.Data.Int.ModEq
import Mathlib.Tactic.Common

/-! Fixed-width integers of C as residues of the integers.

Where C leaves a behaviour undefined, a model does what the machine does: a result that leaves its type wraps, and a shift count is taken modulo the width.
What the machine cannot carry out has no result: a division by zero, an access outside an object, the use of a null pointer.
Nor has a size to allocate that leaves its type where the model says so.
A read outside an object goes on only where its value makes no difference. -/

namespace Ints

/-- The largest value of a 32-bit `int`. -/
def intMax : Int := 2 ^ 31 - 1

/-- The value an `int` has after an operation with this exact result. -/
def int32 (x : Int) : Int := (x + 2 ^ 31) % 2 ^ 32 - 2 ^ 31

/-- The value a `ptrdiff_t` has after an operation with this exact result. -/
def int64 (x : Int) : Int := (x + 2 ^ 63) % 2 ^ 64 - 2 ^ 63

/-- The value an integer has as a `size_t`. -/
def sizeT (x : Int) : Int := x % 2 ^ 64

variable {x : Int}

theorem int32_of_mem (low : -2 ^ 31 ≤ x) (high : x < 2 ^ 31) : int32 x = x := by
  unfold int32
  omega

theorem int32_natCast {k : Nat} (small : k < 2 ^ 31) : int32 k = k :=
  int32_of_mem (by omega) (by omega)

theorem int64_of_mem (low : -2 ^ 63 ≤ x) (high : x < 2 ^ 63) : int64 x = x := by
  unfold int64
  omega

theorem sizeT_of_mem (low : 0 ≤ x) (high : x < 2 ^ 64) : sizeT x = x := by
  unfold sizeT
  omega

/-- Counters of 64 bits are kept by an `int` as the exact sum is. -/
theorem int32_int64 (x : Int) : int32 (int64 x) = int32 x := by
  unfold int32 int64
  omega

theorem int32_int64_add (x y : Int) : int32 (int64 x + y) = int32 (x + y) := by
  unfold int32 int64
  omega

theorem int32_add_int32 (x y : Int) : int32 (x + int32 y) = int32 (x + y) := by
  unfold int32
  omega

/-- Two integers with the same residue are the same `int`. -/
theorem int32_congr {x y : Int} (same : x % 2 ^ 32 = y % 2 ^ 32) : int32 x = int32 y := by
  unfold int32
  omega

/-- A product of `int` may be reduced at the end only. -/
theorem int32_mul (x y : Int) : int32 (int32 x * y) = int32 (x * y) := by
  have kept : int32 x % 2 ^ 32 = x % 2 ^ 32 := by
    unfold int32
    omega
  apply int32_congr
  rw [Int.mul_emod, kept, ← Int.mul_emod]

end Ints
