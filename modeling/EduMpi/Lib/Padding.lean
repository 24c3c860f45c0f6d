import Mathlib.Data.Int.ModEq
import Mathlib.Order.Bounds.Basic
import Mathlib.Tactic.Linarith

/-! Padding to the next multiple of a step, and bounds of repetitions on a line. -/

namespace Padding

/-- The least position from `x` on that is a multiple of `step` away from `origin`. -/
def padTo (origin : Int) (step : Nat) (x : Int) : Int := x + (origin - x) % step

variable {origin x y : Int} {step : Nat}

/-- Padding goes upwards. -/
theorem le_padTo (positive : 0 < step) : x ≤ padTo origin step x := by
  have := Int.emod_nonneg (origin - x) (b := step) (by omega)
  unfold padTo
  omega

/-- A multiple stays where it is. -/
theorem padTo_of_dvd (multiple : (step : Int) ∣ x - origin) : padTo origin step x = x := by
  have : (step : Int) ∣ origin - x := by
    have := Int.dvd_neg.mpr multiple
    rwa [neg_sub] at this
  rw [padTo, Int.emod_eq_zero_of_dvd this, add_zero]

/-- The positions of `count` repetitions of one position. -/
def repeats (count : Nat) (first stride position : Int) : Set Int :=
  {p | ∃ i : Nat, i < count ∧ p = first + i * stride + position}

variable {count : Nat} {first stride position : Int}

/-- A repetition starts between the first and the last one, whatever the stride's sign. -/
theorem repeat_between (first stride : Int) {i : Nat} (inside : i < count) :
    min first (first + stride * (count - 1)) ≤ first + i * stride ∧
      first + i * stride ≤ max first (first + stride * (count - 1)) := by
  -- A repetition lies between the first and the last one on either side of zero.
  rcases le_total 0 stride with up | down
  · have low : 0 ≤ i * stride := Int.mul_nonneg (by omega) up
    have high : i * stride ≤ stride * (count - 1) := by
      rw [mul_comm]
      exact Int.mul_le_mul_of_nonneg_left (by omega) up
    omega
  · have low : i * stride ≤ 0 := Int.mul_nonpos_of_nonneg_of_nonpos (by omega) down
    have high : stride * (count - 1) ≤ i * stride := by
      rw [mul_comm (i : Int)]
      exact Int.mul_le_mul_of_nonpos_left down (by omega)
    omega

/-- The first and the last repetition are among the repetitions. -/
theorem ends_mem_repeats (some : 0 < count) :
    first + position ∈ repeats count first stride position
      ∧ first + stride * (count - 1) + position ∈ repeats count first stride position := by
  refine ⟨⟨0, some, by simp⟩, count - 1, by omega, ?_⟩
  rw [Nat.cast_sub (by omega), Nat.cast_one, mul_comm]

/-- The first or the last repetition is the lowest. -/
theorem repeats_isLeast (some : 0 < count) :
    IsLeast (repeats count first stride position)
      (min first (first + stride * (count - 1)) + position) := by
  constructor
  · -- The least repetition is the first or the last one.
    rcases min_choice first (first + stride * (count - 1)) with least | least <;> rw [least]
    exacts [(ends_mem_repeats some).1, (ends_mem_repeats some).2]
  · rintro p ⟨i, inside, rfl⟩
    have := (repeat_between first stride inside).1
    omega

/-- The first or the last repetition is the highest. -/
theorem repeats_isGreatest (some : 0 < count) :
    IsGreatest (repeats count first stride position)
      (max first (first + stride * (count - 1)) + position) := by
  constructor
  · rcases max_choice first (first + stride * (count - 1)) with most | most <;> rw [most]
    exacts [(ends_mem_repeats some).1, (ends_mem_repeats some).2]
  · rintro p ⟨i, inside, rfl⟩
    have := (repeat_between first stride inside).2
    omega

end Padding
