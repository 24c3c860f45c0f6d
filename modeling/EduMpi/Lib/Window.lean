import Mathlib.Data.Nat.ModEq
import Mathlib.Tactic.Common

/-! Numbers in a window no longer than a modulus, told apart by their residues. -/

namespace Window

variable {n a b : Nat}

/-- Two numbers less than a modulus apart with the same residue are equal. -/
theorem eq_of_mod_eq (same : a % n = b % n) (le : a ≤ b) (close : b < a + n) : a = b := by
  have divides : n ∣ b - a := (Nat.modEq_iff_dvd' le).mp same
  -- A multiple of the modulus below the modulus is zero.
  have zero : b - a = 0 := Nat.eq_zero_of_dvd_of_lt divides (by omega)
  omega

/-- Two different numbers less than a modulus apart have different residues. -/
theorem mod_ne (lt : a < b) (close : b < a + n) : a % n ≠ b % n := by
  intro same
  have equal := eq_of_mod_eq same (Nat.le_of_lt lt) close
  omega

/-- The residue of the next number: one more, or zero behind the last residue. -/
theorem succ_mod (pos : 0 < n) : (a + 1) % n = if a % n + 1 = n then 0 else a % n + 1 := by
  have below : a % n < n := Nat.mod_lt a pos
  rw [Nat.add_mod]
  split
  · rename_i last
    rcases Nat.lt_or_ge 1 n with more | one
    · rw [Nat.mod_eq_of_lt more, last, Nat.mod_self]
    · have : n = 1 := by omega
      subst this
      omega
  · rw [Nat.mod_eq_of_lt (show 1 < n by omega), Nat.mod_eq_of_lt (by omega)]

end Window
