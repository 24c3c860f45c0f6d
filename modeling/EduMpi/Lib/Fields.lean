import Mathlib.Data.Nat.Bitwise
import Mathlib.Tactic.Common

/-! Fields of a machine word. -/

namespace Fields

variable {w h k n : Nat} {x y : BitVec w}

/-- The mask of the bits from one place on and of those below another. -/
def outer (w h k : Nat) : BitVec w := BitVec.allOnes w <<< h ||| BitVec.allOnes w >>> (w - k)

theorem getLsbD_outer {i : Nat} (below : k ≤ w) (inside : i < w) :
    (outer w h k).getLsbD i = (decide (h ≤ i) || decide (i < k)) := by
  simp only [outer, BitVec.getLsbD_or, BitVec.getLsbD_shiftLeft, BitVec.getLsbD_ushiftRight,
    BitVec.getLsbD_allOnes, inside]
  congr 1
  · by_cases high : h ≤ i
    · simp [high, show i - h < w by omega]
    · simp [show i < h by omega]
  · rw [decide_eq_decide]
    omega

/-- Two words agree under such a mask exactly when their high and their low parts do. -/
theorem and_outer_eq_iff (below : k ≤ w) :
    x &&& outer w h k = y &&& outer w h k ↔
      x.toNat / 2 ^ h = y.toNat / 2 ^ h ∧ x.toNat % 2 ^ k = y.toNat % 2 ^ k := by
  constructor
  · intro same
    have bit {i : Nat} (inside : i < w) (kept : h ≤ i ∨ i < k) :
        x.toNat.testBit i = y.toNat.testBit i := by
      have here := congrArg (·.getLsbD i) same
      simp only [BitVec.getLsbD_and, getLsbD_outer below inside] at here
      have set_ : (decide (h ≤ i) || decide (i < k)) = true := by simpa using kept
      rwa [set_, Bool.and_true, Bool.and_true] at here
    constructor
    · apply Nat.eq_of_testBit_eq
      intro i
      rw [Nat.testBit_div_two_pow, Nat.testBit_div_two_pow]
      by_cases inside : i + h < w
      · exact bit inside (.inl (by omega))
      · -- Neither word has bits beyond its width.
        exact (BitVec.getLsbD_of_ge x _ (by omega)).trans (BitVec.getLsbD_of_ge y _ (by omega)).symm
    · apply Nat.eq_of_testBit_eq
      intro i
      rw [Nat.testBit_mod_two_pow, Nat.testBit_mod_two_pow]
      by_cases low : i < k
      · rw [bit (by omega) (.inr low)]
      · simp [low]
  · rintro ⟨high, low⟩
    apply BitVec.eq_of_getLsbD_eq
    intro i inside
    rw [BitVec.getLsbD_and, BitVec.getLsbD_and, getLsbD_outer below inside]
    by_cases fromH : h ≤ i
    · have here := congrArg (·.testBit (i - h)) high
      simp only [Nat.testBit_div_two_pow, Nat.sub_add_cancel fromH] at here
      exact congrArg (· && _) here
    · by_cases belowK : i < k
      · have here := congrArg (·.testBit i) low
        simp only [Nat.testBit_mod_two_pow, belowK] at here
        exact congrArg (· && _) here
      · simp [fromH, belowK]

/-- A field above a smaller number. -/
theorem toNat_shiftLeft_or (small : y.toNat < 2 ^ n) :
    (x <<< n ||| y).toNat = x.toNat * 2 ^ n % 2 ^ w + y.toNat := by
  rw [BitVec.toNat_or, BitVec.toNat_shiftLeft, Nat.shiftLeft_eq]
  by_cases fits : n ≤ w
  · -- Reduced or not, the field is a multiple of its unit.
    obtain ⟨rest, rfl⟩ := Nat.exists_eq_add_of_le fits
    have unit : x.toNat * 2 ^ n % 2 ^ (n + rest) = 2 ^ n * (x.toNat % 2 ^ rest) := by
      rw [Nat.pow_add, Nat.mul_comm x.toNat, Nat.mul_mod_mul_left]
    rw [unit, Nat.two_pow_add_eq_or_of_lt small]
  · have gone : x.toNat * 2 ^ n % 2 ^ w = 0 := by
      apply Nat.mod_eq_zero_of_dvd
      exact Nat.dvd_mul_left_of_dvd (Nat.pow_dvd_pow 2 (by omega)) _
    rw [gone, Nat.zero_or, Nat.zero_add]

end Fields
