import EduMpi.Shmem.Buddy
import Mathlib.Data.Nat.Log

/-! The bit operations of the buddy heap work on sets of numbers, and its orders are logarithms. -/

namespace EduMpi.Shmem

open Words List BitVec

section Access

variable {addr : List (BitVec 64)} {nr : Nat}

theorem bitInLong_eq : bitInLong nr = nr % 64 := by
  unfold bitInLong
  omega

theorem longOf_eq : nr / 32 / 2 = nr / 64 := by omega

/-- A set bit joins the set. -/
theorem setBit_spec (inside : nr / 64 < addr.length) :
    ∃ longs, setBit nr addr = some longs ∧ longs.length = addr.length
      ∧ ∀ i, bitAt longs i = (decide (i = nr) || bitAt addr i) := by
  refine ⟨_, ?_, ?_, fun i => bitAt_set_or inside⟩
  · rw [setBit, longOf_eq, bitInLong_eq, List.getElem?_eq_getElem inside,
      getD_eq_getElem _ _ inside]
    rfl
  · exact length_set

/-- A cleared bit leaves the set. -/
theorem clearBit_spec (inside : nr / 64 < addr.length) :
    ∃ longs, clearBit nr addr = some longs ∧ longs.length = addr.length
      ∧ ∀ i, bitAt longs i = (!decide (i = nr) && bitAt addr i) := by
  refine ⟨_, ?_, ?_, fun i => bitAt_set_and inside⟩
  · rw [clearBit, longOf_eq, bitInLong_eq, List.getElem?_eq_getElem inside,
      getD_eq_getElem _ _ inside]
    rfl
  · exact length_set

theorem testBit_spec (inside : nr / 64 < addr.length) (small : nr < 2 ^ 31) :
    testBit nr addr = some (bitAt addr nr) := by
  rw [testBit, if_neg (by omega), longOf_eq, bitInLong_eq, List.getElem?_eq_getElem inside, bitAt,
    getD_eq_getElem _ _ inside]
  rfl

end Access

section FirstBit

variable {word : BitVec 64} {k shift : Nat}

/-- A bit of a word is its lowest one. -/
structure Lowest (word : BitVec 64) (k : Nat) : Prop where
  one : word.getLsbD k = true
  zeros : ∀ j < k, word.getLsbD j = false

/-- The bits skipped are below the lowest one, which is among the next ones. -/
structure Narrowed (word : BitVec 64) (k bound : Nat) (found : Nat × BitVec 64) : Prop where
  skipped : found.1 ≤ k
  near : k < found.1 + bound
  rest : found.2 = word >>> found.1

/-- The lower bits of a word are masked to zero if they are all zero. -/
theorem and_mask_eq_zero (below : shift < 64) :
    word &&& (twoPow 64 shift - 1#64) = 0#64 ↔ ∀ j < shift, word.getLsbD j = false := by
  constructor
  · intro zero j less
    have bit := congrArg (getLsbD · j) zero
    simpa [getLsbD_twoPow_sub_one below, less] using bit
  · intro zeros
    apply eq_of_getLsbD_eq
    intro j inside
    rw [getLsbD_and, getLsbD_twoPow_sub_one below, getLsbD_zero]
    by_cases less : j < shift
    · rw [zeros j less, Bool.false_and]
    · rw [decide_eq_false less, Bool.and_false]

/-- One step of the search halves the bits in question. -/
theorem Narrowed.step {found : Nat × BitVec 64} (shift : Nat)
    (narrowed : Narrowed word k (2 * shift) found) (below : shift < 64) (lowest : Lowest word k) :
    Narrowed word k shift (ffsStep found shift) := by
  obtain ⟨skipped, near, rest⟩ := narrowed
  -- What is left of the word is the word behind the bits that were skipped.
  have shifted : ∀ j, found.2.getLsbD j = word.getLsbD (found.1 + j) := by
    intro j
    rw [rest, getLsbD_ushiftRight]
  unfold ffsStep
  split
  · rename_i zero
    rw [and_mask_eq_zero below] at zero
    -- All lower bits are zero, so the lowest one is not among them.
    have beyond : found.1 + shift ≤ k := by
      by_contra before
      have bit := zero (k - found.1) (by omega)
      rw [shifted, show found.1 + (k - found.1) = k by omega, lowest.one] at bit
      cases bit
    refine ⟨beyond, by simp only; omega, ?_⟩
    simp only [rest, shiftRight_add]
  · rename_i some_one
    rw [and_mask_eq_zero below] at some_one
    -- One of the lower bits is one, so the lowest one is among them.
    refine ⟨skipped, ?_, rest⟩
    by_contra beyond
    apply some_one
    intro j less
    rw [shifted]
    exact lowest.zeros _ (by omega)

/-- The search finds the lowest bit. -/
theorem Lowest.ffs_eq (lowest : Lowest word k) (below : k < 64) : ffs word = k := by
  have start : Narrowed word k 64 (0, word) := ⟨Nat.zero_le _, by simpa using below, by simp⟩
  -- Six steps leave one bit in question.
  have by32 := start.step 32 (by decide) lowest
  have by8 := (by32.step 16 (by decide) lowest).step 8 (by decide) lowest
  have by2 := (by8.step 4 (by decide) lowest).step 2 (by decide) lowest
  obtain ⟨skipped, near, -⟩ := by2.step 1 (by decide) lowest
  unfold ffs
  simp only [foldl_cons, foldl_nil]
  omega

/-- A word that is not zero has its lowest bit found. -/
theorem ffs_spec (nonzero : word ≠ 0#64) : ffs word < 64 ∧ Lowest word (ffs word) := by
  obtain ⟨k, below, one, zeros⟩ := exists_lowest_one nonzero
  have found := Lowest.ffs_eq ⟨one, zeros⟩ below
  rw [found]
  exact ⟨below, one, zeros⟩

end FirstBit

section Search

variable {addr : List (BitVec 64)}

/-- The first member of a set in a range, or the end of the range. -/
structure FirstIn (addr : List (BitVec 64)) (start stop r : Nat) : Prop where
  before : ∀ j, start ≤ j → j < r → bitAt addr j = false
  found : r < stop → bitAt addr r = true

/-- The bits of a long are the members of the set among its numbers. -/
theorem bitAt_long {p j : Nat} (inside : p < addr.length) (below : j < 64) :
    bitAt addr (64 * p + j) = addr[p].getLsbD j := by
  rw [bitAt_word below, getD_eq_getElem _ _ inside]

/-- The rest of a long is searched up to the size. -/
theorem foundFirst_spec (tmp : BitVec 64) {size : Nat} (result : Nat) (upTo : size ≤ 64) :
    ∃ k ≤ size, foundFirst tmp size result = result + k
      ∧ (∀ j < k, tmp.getLsbD j = false) ∧ (k < size → tmp.getLsbD k = true) := by
  have masked : ∀ j, (tmp &&& allOnes 64 >>> (64 - size)).getLsbD j
      = (tmp.getLsbD j && decide (j < size)) := by
    intro j
    rw [getLsbD_and, getLsbD_ushiftRight, getLsbD_allOnes]
    congr 1
    rw [decide_eq_decide]
    omega
  unfold foundFirst
  simp only
  split
  · -- No bit in reach: the search ends behind the last one.
    rename_i zero
    refine ⟨size, le_refl _, rfl, fun j less => ?_, fun impossible => absurd impossible (by omega)⟩
    have bit := masked j
    rw [zero, getLsbD_zero, decide_eq_true less, Bool.and_true] at bit
    exact bit.symm
  · rename_i nonzero
    obtain ⟨-, lowest⟩ := ffs_spec nonzero
    have one := lowest.one
    rw [masked, Bool.and_eq_true, decide_eq_true_eq] at one
    refine ⟨_, by omega, rfl, fun j less => ?_, fun _ => one.1⟩
    have zero := lowest.zeros j less
    rwa [masked, decide_eq_true (by omega), Bool.and_true] at zero

/-- Whole longs and the rest behind them are searched from the start of a long. -/
theorem findInLongs_spec (addr : List (BitVec 64)) (longs p size : Nat)
    (whole : size / 64 = longs) (inside : 64 * p + size ≤ 64 * addr.length) :
    ∃ r, findInLongs addr longs p (64 * p) size = some r
      ∧ FirstIn addr (64 * p) (64 * p + size) r := by
  -- By induction on the whole longs that are left.
  induction longs generalizing p size with
  | zero =>
    unfold findInLongs
    by_cases empty : size = 0
    · subst empty
      exact ⟨64 * p, rfl, fun j low high => by omega, fun less => by omega⟩
    -- A part of the last long is left.
    have last : p < addr.length := by omega
    obtain ⟨k, upTo, found, zeros, one⟩ :=
      foundFirst_spec addr[p] (64 * p) (show size ≤ 64 by omega)
    refine ⟨64 * p + k, ?_, fun j low high => ?_, fun less => ?_⟩
    · simp only [if_neg empty, List.getElem?_eq_getElem last, Option.bind_eq_bind,
        Option.bind_some, found]
      rfl
    · rw [show j = 64 * p + (j - 64 * p) by omega, bitAt_long last (by omega)]
      exact zeros _ (by omega)
    · rw [bitAt_long last (by omega)]
      exact one (by omega)
  | succ longs ih =>
    have here : p < addr.length := by omega
    unfold findInLongs
    simp only [List.getElem?_eq_getElem here, Option.bind_eq_bind, Option.bind_some]
    by_cases zero : addr[p] = 0#64
    · -- No number of this long is in the set.
      obtain ⟨r, finds, first⟩ := ih (p + 1) (size - 64) (by omega) (by omega)
      rw [show 64 * (p + 1) + (size - 64) = 64 * p + size by omega] at first
      refine ⟨r, ?_, fun j low high => ?_, first.found⟩
      · rw [if_neg (not_not.mpr zero)]
        exact finds
      · rcases Nat.lt_or_ge j (64 * (p + 1)) with inLong | later
        · rw [show j = 64 * p + (j - 64 * p) by omega, bitAt_long here (by omega), zero,
            getLsbD_zero]
        · exact first.before j later high
    · -- The first long that is not zero holds the number.
      obtain ⟨below, lowest⟩ := ffs_spec zero
      refine ⟨64 * p + ffs addr[p], ?_, fun j low high => ?_, fun _ => ?_⟩
      · rw [if_pos zero]
        rfl
      · rw [show j = 64 * p + (j - 64 * p) by omega, bitAt_long here (by omega)]
        exact lowest.zeros _ (by omega)
      · rw [bitAt_long here below]
        exact lowest.one

/-- The search finds the first number of the set. -/
theorem findFirstBit_spec (addr : List (BitVec 64)) (size : Nat)
    (inside : size ≤ 64 * addr.length) :
    ∃ r, findFirstBit addr size = some r ∧ FirstIn addr 0 size r := by
  unfold findFirstBit findNextBit
  by_cases empty : size ≤ 0
  · exact ⟨size, if_pos empty, fun j low high => by omega, fun less => by omega⟩
  · -- A search from zero starts with a whole long.
    simp only [if_neg empty, Nat.zero_div, Nat.zero_mul, Nat.sub_zero, Nat.zero_mod, if_true]
    have spec := findInLongs_spec addr _ 0 size rfl (by omega)
    rwa [Nat.mul_zero, Nat.zero_add] at spec

end Search

section Orders

variable {size : Nat}

theorem halvings_eq (turns : Nat) (small : size < 2 ^ turns) : halvings turns size = Nat.log 2 size := by
  -- One turn for each halving, as the logarithm counts them.
  induction turns generalizing size with
  | zero =>
    obtain rfl : size = 0 := by omega
    rfl
  | succ turns ih =>
    unfold halvings
    split
    · rw [Nat.log_of_lt (by omega)]
    · have half : size / 2 < 2 ^ turns := by rw [Nat.pow_succ] at small; omega
      rw [ih half, Nat.log_div_base]
      have positive : 0 < Nat.log 2 size := Nat.log_pos (by decide) (by omega)
      omega

theorem shifts_eq (turns : Nat) (small : size < 2 ^ turns) (positive : 0 < size) :
    shifts turns size = Nat.log 2 size + 1 := by
  induction turns generalizing size with
  | zero => omega
  | succ turns ih =>
    have half : size / 2 < 2 ^ turns := by rw [Nat.pow_succ] at small; omega
    unfold shifts
    rw [if_pos positive]
    -- The last turn ends with zero, where the loop has counted one more.
    by_cases last : size / 2 = 0
    · rw [last, Nat.log_of_lt (by omega)]
      cases turns <;> rfl
    · rw [ih half (by omega), Nat.log_div_base]
      have more : 0 < Nat.log 2 size := Nat.log_pos (by decide) (by omega)
      omega

/-- The logarithm is rounded up unless the size is a power of two. -/
theorem clog_eq (positive : 0 < size) :
    (if size &&& (size - 1) ≠ 0 then 1 else 0) + Nat.log 2 size = Nat.clog 2 size := by
  have low := Nat.pow_log_le_self 2 (show size ≠ 0 by omega)
  split
  · rename_i shared
    -- Between two powers of two.
    have power : 2 ^ Nat.log 2 size ≠ size := by
      intro equal
      exact shared ((Nat.and_sub_one_eq_zero_iff_isPowerOfTwo (by omega)).mpr ⟨_, equal.symm⟩)
    have above := (Nat.lt_clog_iff_pow_lt (by decide)).mpr (lt_of_le_of_ne low power)
    have high := (Nat.clog_le_iff_le_pow (b := 2) (by decide)).mpr
      (Nat.lt_pow_succ_log_self (by decide) size).le
    omega
  · -- A power of two shares no bit with its predecessor.
    rename_i unshared
    obtain ⟨k, rfl⟩ := (Nat.and_sub_one_eq_zero_iff_isPowerOfTwo (by omega)).mp (not_not.mp unshared)
    rw [Nat.log_pow (by decide), Nat.clog_pow _ _ (by decide), Nat.zero_add]

theorem findOrder_eq (small : size < 2 ^ 64) : findOrder size = Nat.clog 2 size := by
  rcases Nat.eq_zero_or_pos size with rfl | positive
  · rfl
  · rw [findOrder, halvings_eq 64 small, clog_eq positive]

theorem memheapLog2_eq (small : size < 2 ^ 64) (positive : 0 < size) :
    memheapLog2 size = Nat.clog 2 size := by
  unfold memheapLog2
  simp only [shifts_eq 64 small positive]
  rw [if_pos (by omega), ← clog_eq positive]
  omega

end Orders

end EduMpi.Shmem
