import Mathlib.Data.BitVec
import Mathlib.Data.List.GetD
import Mathlib.Data.Nat.Count
import Mathlib.Tactic.Common

/-! Sets of numbers stored as the bits of a list of 64-bit words. -/

namespace Words

open List
open BitVec (twoPow eq_of_getLsbD_eq getLsbD_twoPow allOnes getLsbD_or)

section Word

variable {w k : Nat} {x : BitVec w}

/-- A word that is not zero has a lowest one bit. -/
theorem exists_lowest_one (nonzero : x ≠ 0#w) :
    ∃ k < w, x.getLsbD k = true ∧ ∀ j < k, x.getLsbD j = false := by
  have one := BitVec.getLsbD_true_ctz_of_ne_zero nonzero
  exact ⟨x.ctz.toNat, BitVec.lt_of_getLsbD one, one, fun _ => BitVec.getLsbD_false_of_lt_ctz⟩

/-- A word that is not all ones has a lowest zero bit. -/
theorem exists_lowest_zero (unfilled : x ≠ allOnes w) :
    ∃ k < w, x.getLsbD k = false ∧ ∀ j < k, x.getLsbD j = true := by
  have flipped : ~~~x ≠ 0#w := by
    intro zero
    exact unfilled (by rw [← BitVec.not_not (b := x), zero, BitVec.not_zero])
  obtain ⟨k, below, one, zeros⟩ := exists_lowest_one flipped
  refine ⟨k, below, ?_, fun j before => ?_⟩
  · simpa [below] using one
  · simpa [show j < w by omega] using zeros j before

section

variable (below : k < w)

include below

/-- And-ing a word with its predecessor clears exactly its lowest one bit. -/
theorem and_sub_one (one : x.getLsbD k = true) (zeros : ∀ j < k, x.getLsbD j = false) :
    x &&& (x - 1#w) = x &&& ~~~twoPow w k := by
  apply eq_of_getLsbD_eq
  intro i inside
  -- The predecessor is the complement of the negated word, where the bits above the lowest one
  -- are turned over.
  rw [← BitVec.not_neg, BitVec.getLsbD_and, BitVec.getLsbD_and, BitVec.getLsbD_not,
    BitVec.getLsbD_not, BitVec.getLsbD_neg, getLsbD_twoPow]
  rcases Nat.lt_trichotomy i k with before | rfl | above
  · simp [zeros i before]
  · have lowest : ¬ ∃ j < i, x.getLsbD j = true := by
      rintro ⟨j, before, bit⟩
      exact absurd bit (by simp [zeros j before])
    simp [lowest, below]
  · have lower : ∃ j < i, x.getLsbD j = true := ⟨k, above, one⟩
    simp [lower, inside, show k ≠ i by omega]

/-- Or-ing a word with its successor sets exactly its lowest zero bit. -/
theorem or_add_one (zero : x.getLsbD k = false) (ones : ∀ j < k, x.getLsbD j = true) :
    x ||| (x + 1#w) = x ||| twoPow w k := by
  -- The complement of the successor is the predecessor of the complement.
  have flipped : x + 1#w = ~~~(~~~x - 1#w) := by
    rw [← BitVec.not_neg, BitVec.not_not, BitVec.neg_eq_not_add, BitVec.not_not]
  have clears := and_sub_one (x := ~~~x) below (by rw [BitVec.getLsbD_not, zero]; simpa)
    (fun j before => by rw [BitVec.getLsbD_not, ones j before]; simp)
  rw [flipped, ← BitVec.not_not (b := x ||| _), BitVec.not_or, BitVec.not_not, clears,
    BitVec.not_and, BitVec.not_not, BitVec.not_not]

/-- Masking with a power of two tests its bit. -/
theorem and_twoPow_ne_zero : decide (x &&& twoPow w k ≠ 0#w) = x.getLsbD k := by
  rw [BitVec.and_twoPow]
  cases bit : x.getLsbD k
  · simp
  · have nonzero : twoPow w k ≠ 0#w := by
      intro zero
      have one : (twoPow w k).getLsbD k = true := by simp [below]
      rw [zero, BitVec.getLsbD_zero] at one
      cases one
    simp [nonzero]

/-- Masking out a one bit lowers the number of ones by one. -/
theorem count_and_not_twoPow (one : x.getLsbD k = true) :
    Nat.count (fun i => x.getLsbD i = true) w
      = Nat.count (fun i => (x &&& ~~~twoPow w k).getLsbD i = true) w + 1 := by
  rw [Nat.count_eq_card_filter_range, Nat.count_eq_card_filter_range]
  have removed : (Finset.range w).filter
      (fun i => (x &&& ~~~twoPow w k).getLsbD i = true)
        = ((Finset.range w).filter (fun i => x.getLsbD i = true)).erase k := by
    ext i
    by_cases same : k = i
    · simp [same]
    · simp [Ne.symm same]
      tauto
  rw [removed, Finset.card_erase_of_mem (by simp [below, one])]
  have member : 0 < ((Finset.range w).filter (fun i => x.getLsbD i = true)).card :=
    Finset.card_pos.mpr ⟨k, by simp [below, one]⟩
  omega

/-- A power of two less one has the bits below it. -/
theorem getLsbD_twoPow_sub_one {i : Nat} : (twoPow w k - 1#w).getLsbD i = decide (i < k) := by
  have power : 2 ^ k < 2 ^ w := Nat.pow_lt_pow_right (by omega) below
  have positive : 0 < 2 ^ k := Nat.two_pow_pos k
  have value : (twoPow w k - 1#w).toNat = 2 ^ k - 1 := by
    rw [BitVec.toNat_sub, BitVec.toNat_twoPow, Nat.mod_eq_of_lt power, BitVec.toNat_ofNat,
      Nat.mod_eq_of_lt (show 1 < 2 ^ w by omega),
      show 2 ^ w - 1 + 2 ^ k = 2 ^ k - 1 + 2 ^ w by omega, Nat.add_mod_right,
      Nat.mod_eq_of_lt (by omega)]
  rw [BitVec.getLsbD, value, Nat.testBit_two_pow_sub_one]

/-- Masking with a power of two less one keeps the ones below it. -/
theorem count_and_twoPow_sub_one :
    Nat.count (fun i => (x &&& (twoPow w k - 1#w)).getLsbD i = true) w
      = Nat.count (fun i => x.getLsbD i = true) k := by
  rw [Nat.count_eq_card_filter_range, Nat.count_eq_card_filter_range]
  congr 1
  ext i
  simp only [Finset.mem_filter, Finset.mem_range, BitVec.getLsbD_and,
    getLsbD_twoPow_sub_one below, Bool.and_eq_true, decide_eq_true_eq]
  constructor
  · rintro ⟨-, one, low⟩
    exact ⟨low, one⟩
  · rintro ⟨low, one⟩
    exact ⟨by omega, one, low⟩

end

/-- Or-ing in a clear bit changes that bit and nothing else. -/
theorem xor_or_twoPow (zero : x.getLsbD k = false) : x ^^^ (x ||| twoPow w k) = twoPow w k := by
  apply eq_of_getLsbD_eq
  intro i inside
  by_cases same : k = i
  · subst same
    simp [zero]
  · simp [same]

/-- Turning a one bit over takes it out. -/
theorem xor_twoPow (below : k < w) (one : x.getLsbD k = true) :
    x ^^^ twoPow w k = x &&& ~~~twoPow w k := by
  apply eq_of_getLsbD_eq
  intro i inside
  rw [BitVec.getLsbD_xor, BitVec.getLsbD_and, BitVec.getLsbD_not, getLsbD_twoPow]
  by_cases same : k = i
  · subst same
    simp [below, one]
  · simp [same, inside]

end Word

section List

variable {words : List (BitVec 64)} {i j k : Nat}

/-- Whether a number is in the set a list of words stores. -/
def bitAt (words : List (BitVec 64)) (i : Nat) : Bool :=
  (words.getD (i / 64) 0#64).getLsbD (i % 64)

/-- The bits of a word are the members of the set among its numbers. -/
theorem bitAt_word (below : j < 64) : bitAt words (64 * k + j) = (words.getD k 0#64).getLsbD j := by
  rw [bitAt, show (64 * k + j) / 64 = k by omega, show (64 * k + j) % 64 = j by omega]

/-- Numbers behind the last word are not in the set. -/
theorem bitAt_of_ge (outside : 64 * words.length ≤ i) : bitAt words i = false := by
  rw [bitAt, getD_eq_default _ _ (by omega)]
  exact BitVec.getLsbD_zero

/-- As many words that store the same set are the same. -/
theorem eq_of_bitAt {others : List (BitVec 64)} (length : words.length = others.length)
    (same : ∀ i, bitAt words i = bitAt others i) : words = others := by
  refine ext_getElem length fun k inside insideOther => ?_
  apply eq_of_getLsbD_eq
  intro j below
  -- Each bit of a word is a number of the set.
  have bit := same (64 * k + j)
  rwa [bitAt_word below, bitAt_word below, getD_eq_getElem _ _ inside,
    getD_eq_getElem _ _ insideOther] at bit

/-- A replaced word replaces the bits of its numbers. -/
theorem bitAt_set {word : BitVec 64} (inside : k < words.length) :
    bitAt (words.set k word) i = if i / 64 = k then word.getLsbD (i % 64) else bitAt words i := by
  unfold bitAt
  by_cases same : i / 64 = k
  · subst same
    rw [if_pos rfl, getD_eq_getElem _ _ (by simpa using inside), getElem_set_self]
  · rw [if_neg same]
    simp only [getD_eq_getElem?_getD, List.getElem?_set_ne (Ne.symm same)]

/-- Or-ing a power of two into a word puts one number into the set. -/
theorem bitAt_set_or (inside : j / 64 < words.length) :
    bitAt (words.set (j / 64) (words.getD (j / 64) 0#64 ||| twoPow 64 (j % 64))) i
      = (decide (i = j) || bitAt words i) := by
  rw [bitAt_set inside]
  split
  · rename_i same
    rw [getLsbD_or, getLsbD_twoPow, bitAt, same, Bool.or_comm]
    congr 1
    simp only [show j % 64 < 64 from Nat.mod_lt _ (by decide), decide_true, Bool.true_and,
      decide_eq_decide]
    omega
  · rename_i different
    rw [decide_eq_false (fun equal => different (by rw [equal])), Bool.false_or]

/-- Masking a power of two out of a word takes one number out of the set. -/
theorem bitAt_set_and (inside : j / 64 < words.length) :
    bitAt (words.set (j / 64) (words.getD (j / 64) 0#64 &&& ~~~twoPow 64 (j % 64))) i
      = (!decide (i = j) && bitAt words i) := by
  rw [bitAt_set inside]
  split
  · rename_i same
    rw [BitVec.getLsbD_and, BitVec.getLsbD_not, getLsbD_twoPow, bitAt, same, Bool.and_comm]
    congr 1
    have inWord : i % 64 < 64 := Nat.mod_lt _ (by decide)
    simp only [inWord, show j % 64 < 64 from Nat.mod_lt _ (by decide), decide_true, Bool.true_and]
    congr 1
    rw [decide_eq_decide]
    omega
  · rename_i different
    rw [decide_eq_false (fun equal => different (by rw [equal])), Bool.not_false, Bool.true_and]

/-- Appended zero words leave the set as it is. -/
theorem bitAt_append_zeros : bitAt (words ++ List.replicate k 0#64) i = bitAt words i := by
  unfold bitAt
  rcases Nat.lt_or_ge (i / 64) words.length with inside | outside
  · rw [getD_append _ _ _ _ inside]
  · rw [getD_append_right _ _ _ _ outside, getD_eq_default _ _ outside]
    simp [List.getElem?_replicate]
    split <;> simp

theorem bitAt_zeros : bitAt (List.replicate k 0#64) i = false := by
  have empty : bitAt [] i = false := bitAt_of_ge (by simp)
  simpa [empty] using @bitAt_append_zeros [] i k

theorem bitAt_ones : bitAt (List.replicate k (allOnes 64)) i = decide (i < 64 * k) := by
  unfold bitAt
  rcases Nat.lt_or_ge (i / 64) k with inside | outside
  · rw [getD_replicate _ inside, BitVec.getLsbD_allOnes,
      decide_eq_true (Nat.mod_lt i (by decide)), decide_eq_true (by omega)]
  · rw [getD_eq_default _ _ (by simpa using outside), decide_eq_false (by omega)]
    exact BitVec.getLsbD_zero

/-- The ones of a word's first bits are the members of the set among their numbers. -/
theorem count_word (words : List (BitVec 64)) (i : Nat) (upTo : k ≤ 64) :
    Nat.count (fun j => bitAt words (64 * i + j) = true) k
      = Nat.count (fun j => (words.getD i 0#64).getLsbD j = true) k := by
  rw [Nat.count_eq_card_filter_range, Nat.count_eq_card_filter_range]
  congr 1
  apply Finset.filter_congr
  intro j inside
  have below := Finset.mem_range.mp inside
  rw [bitAt_word (by omega)]

end List

end Words
