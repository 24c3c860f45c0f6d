import EduMpi.Opal.Bitmap

/-! The bitmap stores the set its calls put together, as long as its limit and its sizes fit. -/

namespace EduMpi.Opal

open Ints Words List Option
open BitVec (twoPow allOnes)

namespace Bitmap

variable {bm : Bitmap} {bit : Int} {index i : Nat}

/-- The words counted are the words allocated. -/
def Sized (bm : Bitmap) : Prop := bm.words.length = bm.arraySize

/-- A word inside the array can be read. -/
theorem Sized.word (sized : bm.Sized) (inside : index < bm.arraySize) :
    bm.words[index]? = some (bm.words.getD index 0#64) := by
  have allocated : index < bm.words.length := by rw [sized]; exact inside
  rw [getD_eq_getElem _ _ allocated, List.getElem?_eq_getElem allocated]

/-- A bitmap behind a call: the words are counted, the limit is the same, and these are its
bits. -/
structure Behind (bm after : Bitmap) (size : Nat) (bits : Nat → Bool) : Prop where
  sized : after.Sized
  size : after.arraySize = size
  limit : after.maxSize = bm.maxSize
  bits : ∀ i, bitAt after.words i = bits i

section

variable (sized : bm.Sized)

include sized

/-- A stored word takes the place of the old one. -/
theorem Sized.store {word : BitVec 64} :
    Behind bm (bm.store index word) bm.arraySize (bitAt (bm.words.set index word)) where
  sized := (length_set).trans sized
  size := rfl
  limit := rfl
  bits _ := rfl

/-- A bitmap grows to the word that is needed, with the same bits, as long as the limit is not
below it. -/
theorem Sized.grow (beyond : bm.arraySize ≤ index) (room : (index : Int) + 1 ≤ bm.maxSize) :
    ∃ grown, bm.grow index = some grown ∧ Behind bm grown (index + 1) (bitAt bm.words) := by
  unfold Bitmap.grow
  simp only [if_neg (show ¬ bm.maxSize < index + 1 by omega),
    if_neg (show ¬ index + 1 < bm.arraySize by omega)]
  have all : bm.words.take (index + 1) = bm.words :=
    take_of_length_le (by rw [sized]; omega)
  refine ⟨_, rfl, ?_, rfl, rfl, fun i => ?_⟩
  · unfold Sized
    simp only [words, getD_some, length_append, length_replicate]
    rw [← words, all, sized]
    omega
  · simp only [words, getD_some]
    rw [← words, all, bitAt_append_zeros]

/-- Behind the expansion the word that is needed is there, and the bits are the same. -/
theorem Sized.expand (room : (index : Int) + 1 ≤ bm.maxSize) :
    ∃ grown, bm.expand index = some grown
      ∧ Behind bm grown (max bm.arraySize (index + 1)) (bitAt bm.words) := by
  unfold Bitmap.expand
  split
  · rename_i beyond
    rw [max_eq_right (by omega)]
    exact sized.grow beyond room
  · exact ⟨bm, rfl, sized, by omega, rfl, fun _ => rfl⟩

/-- Setting a bit up to the limit puts it into the set and changes no other. -/
theorem Sized.setBit {b : Nat} (limit : 1 ≤ bm.maxSize) (within : (b : Int) ≤ bm.maxSize) :
    ∃ after, bm.setBit b = some (.success, after)
      ∧ Behind bm after (max bm.arraySize (b / 64 + 1))
          (fun i => decide (i = b) || bitAt bm.words i) := by
  have index : ((b : Int) / 64).toNat = b / 64 := by omega
  obtain ⟨grown, grows, grownSized, size, same, bits⟩ :=
    sized.expand (show (↑(b / 64) : Int) + 1 ≤ bm.maxSize by omega)
  refine ⟨grown.store (b / 64) (grown.words.getD (b / 64) 0#64 ||| twoPow 64 (b % 64)), ?_,
    grownSized.store.sized, size, same, fun i => ?_⟩
  · unfold Bitmap.setBit
    rw [if_neg (by omega), index]
    simp only [bind_eq_bind, bind_some, grows,
      grownSized.word (show b / 64 < grown.arraySize by omega)]
    rfl
  · rw [grownSized.store.bits, bitAt_set_or (by rw [grownSized]; omega), bits]

/-- A bitmap takes every bit below a limit that is at most one above the stored one. -/
theorem Sized.accepts {limit : Int} (positive : 1 ≤ bm.maxSize) (within : limit ≤ bm.maxSize + 1)
    (nonneg : 0 ≤ bit) (below : bit < limit) :
    ∃ after, bm.setBit bit = some (.success, after) := by
  obtain ⟨b, rfl⟩ := Int.eq_ofNat_of_zero_le nonneg
  obtain ⟨after, sets, -⟩ := sized.setBit positive (show (b : Int) ≤ bm.maxSize by omega)
  exact ⟨after, sets⟩

end

/-- A bit beyond the limit is refused. -/
theorem setBit_of_gt (beyond : bit < 0 ∨ bm.maxSize < bit) :
    bm.setBit bit = some (.errBadParam, bm) := by
  unfold setBit
  rw [if_pos beyond]
  rfl

/-- Clearing a bit takes it out of the set, and one that has no word is not in the set. -/
theorem Sized.clearBit (sized : bm.Sized) (bit : Int) (small : 64 * bm.arraySize < 2 ^ 31) :
    ∃ rc after, bm.clearBit bit = some (rc, after)
      ∧ Behind bm after bm.arraySize
          (fun i => !decide ((i : Int) = bit) && bitAt bm.words i) := by
  have capacity : int32 (bm.arraySize * 64) = bm.arraySize * 64 :=
    int32_of_mem (by omega) (by omega)
  unfold Bitmap.clearBit
  split
  · -- A bit outside of the words is zero as it is.
    refine ⟨.errBadParam, bm, rfl, sized, rfl, rfl, fun i => ?_⟩
    by_cases same : (i : Int) = bit
    · rw [bitAt_of_ge (by rw [sized]; omega), Bool.and_false]
    · rw [decide_eq_false same, Bool.not_false, Bool.true_and]
  obtain ⟨b, rfl⟩ := Int.eq_ofNat_of_zero_le (show 0 ≤ bit by omega)
  have index : ((b : Int) / 64).toNat = b / 64 := by omega
  refine ⟨.success,
    bm.store (b / 64) (bm.words.getD (b / 64) 0#64 &&& ~~~twoPow 64 (b % 64)), ?_,
    sized.store.sized, rfl, rfl, fun i => ?_⟩
  · rw [index]
    simp only [sized.word (show b / 64 < bm.arraySize by omega)]
    rfl
  · rw [sized.store.bits, bitAt_set_and (by rw [sized]; omega)]
    simp only [Nat.cast_inj]

/-- The test reads the bit; bits without a word are not in the set. -/
theorem Sized.isSetBit (sized : bm.Sized) (small : 64 * bm.arraySize < 2 ^ 31) :
    bm.isSetBit bit = some (decide (0 ≤ bit) && bitAt bm.words bit.toNat) := by
  have capacity : int32 (bm.arraySize * 64) = bm.arraySize * 64 :=
    int32_of_mem (by omega) (by omega)
  unfold Bitmap.isSetBit
  split
  · rename_i outside
    rcases outside with negative | beyond
    · rw [decide_eq_false (by omega)]
      rfl
    · rw [bitAt_of_ge (by rw [sized]; omega), Bool.and_false]
      rfl
  · obtain ⟨b, rfl⟩ := Int.eq_ofNat_of_zero_le (show 0 ≤ bit by omega)
    have index : ((b : Int) / 64).toNat = b / 64 := by omega
    rw [index, decide_eq_true (by omega), Bool.true_and, Int.toNat_natCast]
    simp only [sized.word (show b / 64 < bm.arraySize by omega)]
    exact congrArg some (and_twoPow_ne_zero (Nat.mod_lt b (by decide)))

/-- Filling gives every counted word one value. -/
theorem Sized.fill (sized : bm.Sized) (value : BitVec 64) :
    bm.fill value = some { bm with bitmap := some (List.replicate bm.arraySize value) } := by
  unfold Bitmap.fill
  rw [if_neg (by rw [sized]; omega), drop_eq_nil_of_le (by rw [sized]), append_nil]

/-- The scan stops at the first word that has a zero, or behind the last word. -/
theorem Sized.firstUnfilled (sized : bm.Sized) (i : Nat) (start : i ≤ bm.arraySize) :
    ∃ stop, bm.firstUnfilled i = some stop ∧ stop ≤ bm.arraySize
      ∧ (∀ k, i ≤ k → k < stop → bm.words.getD k 0#64 = allOnes 64)
      ∧ (stop < bm.arraySize → bm.words.getD stop 0#64 ≠ allOnes 64) := by
  -- The words left to scan become fewer at every turn of the loop.
  induction left : bm.arraySize - i generalizing i with
  | zero =>
    rw [Bitmap.firstUnfilled, if_neg (by omega)]
    exact ⟨i, rfl, start, fun k low high => by omega, fun inside => by omega⟩
  | succ n ih =>
    rw [Bitmap.firstUnfilled, if_pos (by omega), sized.word (by omega)]
    by_cases full : bm.words.getD i 0#64 = allOnes 64
    · obtain ⟨stop, scans, high, ones, unfilled⟩ := ih (i + 1) (by omega) (by omega)
      refine ⟨stop, ?_, high, fun k from_i before => ?_, unfilled⟩
      · simp only [if_pos full, scans]
      · rcases Nat.eq_or_lt_of_le from_i with rfl | later
        · exact full
        · exact ones k later before
    · refine ⟨i, ?_, start, fun k low high => by omega, fun _ => full⟩
      simp only [if_neg full]

/-- The position of a power of two is its exponent. -/
theorem positionOf_twoPow (k : Nat) (below : k < 64) : positionOf (twoPow 64 k) = some k := by
  -- The code shifts the word until its one is the lowest bit.
  induction k with
  | zero =>
    rw [positionOf]
    rfl
  | succ k ih =>
    have bits (i : Nat) : (twoPow 64 (k + 1)).getLsbD i = decide (k + 1 = i) := by
      simp [below]
    have nonzero : twoPow 64 (k + 1) ≠ 0#64 := by
      intro zero
      have one := bits (k + 1)
      rw [zero] at one
      simp at one
    have even : twoPow 64 (k + 1) &&& 1#64 = 0#64 := by
      rw [← BitVec.twoPow_zero, BitVec.and_twoPow]
      simp
    have half : twoPow 64 (k + 1) >>> 1 = twoPow 64 k := by
      apply BitVec.eq_of_getLsbD_eq
      intro i inside
      rw [BitVec.getLsbD_ushiftRight, bits, BitVec.getLsbD_twoPow]
      simp only [show k < 64 by omega, decide_true, Bool.true_and, decide_eq_decide]
      omega
    rw [positionOf, if_neg nonzero, if_neg (not_not.mpr even), half, ih (by omega)]
    rfl

/-- A bitmap with no zero in its words. -/
def Full (bm : Bitmap) : Prop :=
  ∀ i < bm.arraySize, bm.words.getD i 0#64 = allOnes 64

instance : Decidable bm.Full := inferInstanceAs (Decidable (∀ i < bm.arraySize, _))

theorem Full.bitAt (full : bm.Full) (inside : i < 64 * bm.arraySize) : bitAt bm.words i = true := by
  rw [Words.bitAt, full (i / 64) (by omega), BitVec.getLsbD_allOnes,
    decide_eq_true (Nat.mod_lt i (by decide))]

/-- On a bitmap with a zero the search finds and sets the lowest one. -/
theorem Sized.findAndSet_of_not_full (sized : bm.Sized) (zero : ¬ bm.Full) :
    ∃ (position : Nat) (after : Bitmap),
      bm.findAndSetFirstUnsetBit = some (BitmapRc.success, (position : Int), after)
      ∧ Words.bitAt bm.words position = false
      ∧ (∀ i < position, Words.bitAt bm.words i = true)
      ∧ Behind bm after bm.arraySize
          (fun i => decide (i = position) || Words.bitAt bm.words i) := by
  obtain ⟨stop, scans, high, ones, unfilled⟩ := sized.firstUnfilled 0 (Nat.zero_le _)
  -- The scan has stopped at a word, as not all of them are full.
  have inside : stop < bm.arraySize := by
    rcases Nat.eq_or_lt_of_le high with behind | inside
    · exact absurd (fun i before => ones i (Nat.zero_le i) (by omega)) zero
    · exact inside
  -- The zero of the word found, and its number in the bitmap.
  obtain ⟨k, below, clear, lower⟩ := exists_lowest_zero (unfilled inside)
  have word : (64 * stop + k) / 64 = stop := by omega
  have place : (64 * stop + k) % 64 = k := by omega
  refine ⟨64 * stop + k,
    bm.store stop (bm.words.getD stop 0#64 ||| twoPow 64 k), ?_, ?_, fun i before => ?_,
    sized.store.sized, rfl, rfl, fun i => ?_⟩
  · unfold findAndSetFirstUnsetBit
    simp only [scans, bind_eq_bind, bind_some,
      if_neg (show stop ≠ bm.arraySize by omega), sized.word inside,
      or_add_one below clear lower, xor_or_twoPow clear,
      positionOf_twoPow k below]
    simp only [Option.pure_def, some.injEq, Prod.mk.injEq, true_and, and_true]
    omega
  · exact (bitAt_word below).trans clear
  · -- Lower words are full, and in this word the lower bits are ones.
    rw [Words.bitAt]
    rcases Nat.lt_or_ge (i / 64) stop with earlier | same
    · rw [ones (i / 64) (Nat.zero_le _) earlier, BitVec.getLsbD_allOnes,
        decide_eq_true (Nat.mod_lt i (by decide))]
    · rw [show i / 64 = stop by omega]
      exact lower _ (by omega)
  · have sets := @bitAt_set_or bm.words i (64 * stop + k) (by rw [word, sized]; exact inside)
    rw [word, place] at sets
    rw [sized.store.bits, sets]

/-- On a full bitmap the search asks for the first bit of a new word. -/
theorem Sized.findAndSet_of_full (sized : bm.Sized) (full : bm.Full)
    (small : 64 * bm.arraySize < 2 ^ 31) :
    bm.findAndSetFirstUnsetBit = (bm.setBit (64 * bm.arraySize : Nat)).map
      (fun result => (result.1, ((64 * bm.arraySize : Nat) : Int), result.2)) := by
  obtain ⟨stop, scans, high, ones, unfilled⟩ := sized.firstUnfilled 0 (Nat.zero_le _)
  have behind : stop = bm.arraySize := by
    rcases Nat.eq_or_lt_of_le high with behind | inside
    · exact behind
    · exact absurd (full stop inside) (unfilled inside)
  have position : int32 (bm.arraySize * 64) = ((64 * bm.arraySize : Nat) : Int) := by
    rw [int32_of_mem (by omega) (by omega)]
    omega
  unfold findAndSetFirstUnsetBit
  simp only [scans, bind_eq_bind, bind_some, if_pos behind, position]
  cases bm.setBit (64 * bm.arraySize : Nat) <;> rfl

/-- The counting loop counts the ones of a word. -/
theorem onesOf_eq (val : BitVec 64) :
    onesOf val = Nat.count (fun i => val.getLsbD i = true) 64 := by
  fun_induction onesOf val with
  | case1 => simp
  | case2 val nonzero ih =>
    obtain ⟨k, below, one, zeros⟩ := exists_lowest_one nonzero
    rw [ih, and_sub_one below one zeros, ← count_and_not_twoPow below one]

theorem Sized.onesOfWords (sized : bm.Sized) (n : Nat) (inside : n ≤ bm.arraySize) :
    bm.onesOfWords n = some (Nat.count (fun i => Words.bitAt bm.words i = true) (64 * n)) := by
  induction n with
  | zero => rfl
  | succ n ih =>
    simp only [Bitmap.onesOfWords, ih (by omega), bind_eq_bind, bind_some,
      sized.word (show n < bm.arraySize by omega)]
    rw [Nat.mul_succ, Nat.count_add, count_word _ _ (le_refl 64), onesOf_eq]
    rfl

/-- The count is the number of members below a length that the words cover. -/
theorem Sized.numSetBits (sized : bm.Sized) (small : 64 * bm.arraySize < 2 ^ 31) (debug : Bool)
    (len : Nat) (covered : len ≤ 64 * bm.arraySize) :
    numSetBits debug bm len = some (Nat.count (fun i => Words.bitAt bm.words i = true) len) := by
  have capacity : int32 (bm.arraySize * 64) = bm.arraySize * 64 :=
    int32_of_mem (by omega) (by omega)
  have elements : ((len : Int).tdiv 64).toNat = len / 64 := by
    rw [Int.tdiv_eq_ediv_of_nonneg (by omega)]
    omega
  have remaining : (len : Int).tmod 64 = ((len % 64 : Nat) : Int) := by
    rw [Int.tmod_eq_emod_of_nonneg (by omega)]
    omega
  have splits := Nat.div_add_mod len 64
  unfold Bitmap.numSetBits
  rw [if_neg (by omega), elements, remaining]
  simp only [sized.onesOfWords _ (show len / 64 ≤ bm.arraySize by omega)]
  -- The rest of the length is counted in the last word, masked.
  split
  · have inWord : len % 64 < 64 := Nat.mod_lt len (by decide)
    simp only [sized.word (show len / 64 < bm.arraySize by omega), Int.toNat_natCast]
    change some (_ + onesOf (_ &&& (twoPow 64 (len % 64) - 1#64))) = _
    rw [onesOf_eq, count_and_twoPow_sub_one inWord, ← count_word _ _ (Nat.le_of_lt inWord),
      ← Nat.count_add, splits]
  · rw [show 64 * (len / 64) = len by omega]
    rfl

end Bitmap

namespace BitmapState

/-- The search has a zero to find, or a word to add that is inside the limit and whose bits can
be counted in an `int`. -/
def Room (s : BitmapState) : Prop :=
  s.bm.Full → ((64 * s.bm.arraySize : Nat) : Int) ≤ s.bm.maxSize
    ∧ 64 * (s.bm.arraySize + 1) < 2 ^ 31

instance (s : BitmapState) : Decidable s.Room := inferInstanceAs (Decidable (_ → _))

/-- Calls that keep the number of bits inside an `int`. -/
def Countable (s : BitmapState) : BitmapAction → Prop
  | .setBit bit => bit < 2 ^ 31 - 64
  | .findAndSetFirstUnsetBit => s.Room
  | _ => True

instance (s : BitmapState) : DecidablePred s.Countable
  | .setBit bit => inferInstanceAs (Decidable (bit < 2 ^ 31 - 64))
  | .findAndSetFirstUnsetBit => inferInstanceAs (Decidable s.Room)
  | .clearBit _ => isTrue trivial
  | .setAllBits => isTrue trivial
  | .clearAllBits => isTrue trivial

/-- The bitmap answers as a set of bit numbers below a limit does. -/
structure Refines (limit : Int) (s : BitmapState) : Prop where
  /-- Every bit below the limit can be set. -/
  accepts : ∀ bit, 0 ≤ bit → bit < limit → ∃ after, s.bm.setBit bit = some (.success, after)
  /-- No call leaves the allocated words, and each returns. -/
  returns : ∀ action, s.Countable action → ∃ after, s.step action = some after
  tests : ∀ bit, s.bm.isSetBit bit = some (decide (0 ≤ bit ∧ bit.toNat ∈ s.live))
  /-- The search finds the least number that is not in the set, and puts it in. -/
  finds : s.Room → ∃ (position : Nat) (after : Bitmap),
    s.bm.findAndSetFirstUnsetBit = some (BitmapRc.success, (position : Int), after)
      ∧ position ∉ s.live ∧ (∀ i < position, i ∈ s.live)
      ∧ s.step .findAndSetFirstUnsetBit = some ⟨after, insert position s.live⟩
  counts : ∀ debug (len : Nat), len ≤ 64 * s.bm.arraySize →
    Bitmap.numSetBits debug s.bm len = some (Nat.count (· ∈ s.live) len)

/-- The words store the set, and their limit is the caller's. -/
structure Inv (limit : Int) (s : BitmapState) : Prop where
  sized : s.bm.Sized
  stored : ∀ i, bitAt s.bm.words i = decide (i ∈ s.live)
  small : 64 * s.bm.arraySize < 2 ^ 31
  positive : 1 ≤ s.bm.maxSize
  within : limit ≤ s.bm.maxSize + 1

variable {limit : Int} {s t : BitmapState}

section

variable (inv : Inv limit s)

include inv

/-- A call that leaves the bits of a set behind keeps the invariant with that set. -/
theorem Inv.behind {after : Bitmap} {size : Nat} {bits : Nat → Bool} {live : Finset Nat}
    (call : s.bm.Behind after size bits) (small : 64 * size < 2 ^ 31)
    (stored : ∀ i, bits i = decide (i ∈ live)) : Inv limit ⟨after, live⟩ where
  sized := call.sized
  stored i := (call.bits i).trans (stored i)
  small := call.size.symm ▸ small
  positive := call.limit.symm ▸ inv.positive
  within := call.limit.symm ▸ inv.within

theorem Inv.stored_insert (b i : Nat) :
    (decide (i = b) || bitAt s.bm.words i) = decide (i ∈ insert b s.live) := by
  rw [inv.stored, ← Bool.decide_or, decide_eq_decide, Finset.mem_insert]

/-- A bit that is set joins the set; one that is refused leaves everything as it was. -/
theorem Inv.setBit {bit : Int} (countable : bit < 2 ^ 31 - 64) :
    ∃ rc bm, s.bm.setBit bit = some (rc, bm)
      ∧ Inv limit ⟨bm, if rc = .success then insert bit.toNat s.live else s.live⟩ := by
  by_cases refused : bit < 0 ∨ s.bm.maxSize < bit
  · exact ⟨_, _, Bitmap.setBit_of_gt refused, inv⟩
  · obtain ⟨b, rfl⟩ := Int.eq_ofNat_of_zero_le (show 0 ≤ bit by omega)
    obtain ⟨after, sets, call⟩ := inv.sized.setBit inv.positive
      (show (b : Int) ≤ s.bm.maxSize by omega)
    have small := inv.small
    exact ⟨_, _, sets, inv.behind call (by omega) (inv.stored_insert b)⟩

/-- The search puts the least number that is not in the set into it. -/
theorem Inv.find (room : s.Room) :
    ∃ (position : Nat) (after : Bitmap),
      s.bm.findAndSetFirstUnsetBit = some (BitmapRc.success, (position : Int), after)
        ∧ position ∉ s.live ∧ (∀ i < position, i ∈ s.live)
        ∧ Inv limit ⟨after, insert position s.live⟩ := by
  have member (i : Nat) : bitAt s.bm.words i = true ↔ i ∈ s.live := by
    rw [inv.stored, decide_eq_true_iff]
  by_cases full : s.bm.Full
  · -- A full bitmap gets a new word, and its first bit is the least one missing.
    obtain ⟨inside, small⟩ := room full
    obtain ⟨after, sets, call⟩ := inv.sized.setBit inv.positive inside
    refine ⟨64 * s.bm.arraySize, after, ?_, ?_, fun i below => ?_,
      inv.behind call (by omega) (inv.stored_insert _)⟩
    · rw [inv.sized.findAndSet_of_full full inv.small, sets]
      rfl
    · rw [← member, bitAt_of_ge (by rw [inv.sized])]
      exact Bool.false_ne_true
    · exact (member i).mp (full.bitAt below)
  · -- Otherwise the lowest zero is set.
    obtain ⟨position, after, finds, missing, lower, call⟩ :=
      inv.sized.findAndSet_of_not_full full
    refine ⟨position, after, finds, ?_, fun i below => (member i).mp (lower i below),
      inv.behind call inv.small (inv.stored_insert _)⟩
    rw [← member, missing]
    exact Bool.false_ne_true

/-- Words of one value store the set of that value's bits. -/
theorem Inv.fill (value : BitVec 64) (live : Finset Nat)
    (bits : ∀ i, bitAt (List.replicate s.bm.arraySize value) i = decide (i ∈ live)) :
    Inv limit ⟨{ s.bm with bitmap := some (List.replicate s.bm.arraySize value) }, live⟩ :=
  inv.behind ⟨length_replicate, rfl, rfl, fun _ => rfl⟩ inv.small bits

/-- Every call of a countable size returns, and the words store the set behind it. -/
theorem Inv.step {action : BitmapAction} (countable : s.Countable action) :
    ∃ after, s.step action = some after ∧ Inv limit after := by
  cases action with
  | setBit bit =>
    obtain ⟨rc, bm, sets, keeps⟩ := inv.setBit countable
    exact ⟨_, by simp only [BitmapState.step, sets]; rfl, keeps⟩
  | clearBit bit =>
    obtain ⟨rc, bm, clears, call⟩ := inv.sized.clearBit bit inv.small
    refine ⟨_, by simp only [BitmapState.step, clears]; rfl, inv.behind call inv.small fun i => ?_⟩
    rw [inv.stored, ← decide_not, ← Bool.decide_and, decide_eq_decide]
    split
    · rw [Finset.mem_erase, show (i : Int) = bit ↔ i = bit.toNat by omega]
    · simp only [show ¬ (i : Int) = bit by omega, not_false_eq_true, true_and]
  | setAllBits =>
    refine ⟨_, ?_, inv.fill (allOnes 64) (Finset.range (64 * s.bm.arraySize)) fun i => ?_⟩
    · simp only [BitmapState.step, Bitmap.setAllBits, inv.sized.fill]
      rfl
    · rw [bitAt_ones, decide_eq_decide, Finset.mem_range]
  | clearAllBits =>
    refine ⟨_, ?_, inv.fill 0#64 ∅ fun i => ?_⟩
    · simp only [BitmapState.step, Bitmap.clearAllBits, inv.sized.fill]
      rfl
    · rw [bitAt_zeros, decide_eq_false (Finset.notMem_empty i)]
  | findAndSetFirstUnsetBit =>
    obtain ⟨position, after, finds, -, -, keeps⟩ := inv.find countable
    exact ⟨_, by simp only [BitmapState.step, finds]; rfl, keeps⟩

/-- Words that store the set answer as the set does. -/
theorem Inv.refines : Refines limit s where
  accepts _ nonneg below := inv.sized.accepts inv.positive inv.within nonneg below
  returns action countable := by
    obtain ⟨after, steps, -⟩ := inv.step countable
    exact ⟨after, steps⟩
  tests bit := by
    rw [inv.sized.isSetBit inv.small, inv.stored, ← Bool.decide_and]
  finds room := by
    obtain ⟨position, after, finds, missing, lower, -⟩ := inv.find room
    refine ⟨position, after, finds, missing, lower, ?_⟩
    simp only [BitmapState.step, finds]
    rfl
  counts debug len covered := by
    rw [inv.sized.numSetBits inv.small debug len covered]
    simp only [inv.stored, decide_eq_true_eq]

end

/-- The limits under which a new bitmap of a size takes every bit below its limit: the default
one, and one or two bits with a size of one. -/
def TakesLimit (limit : Option Int) (size : Int) : Prop :=
  limit = none ∨ limitBits limit ≤ 2 ∧ size = 1

section

variable {size : Int} (positive : 1 ≤ size) (fits : size ≤ intMax)

include positive fits

theorem wordsFor_eq : Bitmap.wordsFor size = (size + 63) / 64 := by
  unfold intMax at fits
  unfold Bitmap.wordsFor
  rw [sizeT_of_mem (x := size) (by omega) (by omega), sizeT_of_mem (by omega) (by omega)]
  omega

/-- The first initialisation within the stored limit clears the words for its bits. -/
theorem init_of_le {maxSize : Int} (within : size ≤ maxSize) :
    Bitmap.init ⟨none, 0, maxSize⟩ size = some (.success,
      ⟨some (List.replicate ((size + 63) / 64).toNat 0#64), ((size + 63) / 64).toNat,
        maxSize⟩) := by
  unfold Bitmap.init
  rw [if_neg (show ¬ (size ≤ 0 ∨ maxSize < size) by omega), wordsFor_eq positive fits]
  simp only [Bitmap.clearAllBits]
  rw [Bitmap.Sized.fill (by exact length_replicate)]
  rfl

/-- A new bitmap starts with the empty set if the size is within the stored limit. -/
theorem start_eq {limit : Option Int} :
    start limit size = if size ≤ (Bitmap.limited limit).maxSize then
        some ⟨⟨some (List.replicate ((size + 63) / 64).toNat 0#64), ((size + 63) / 64).toNat,
          (Bitmap.limited limit).maxSize⟩, ∅⟩
      else none := by
  have fresh : Bitmap.limited limit = ⟨none, 0, (Bitmap.limited limit).maxSize⟩ := by
    cases limit <;> rfl
  unfold start
  split_ifs with within
  · rw [fresh, init_of_le positive fits within]
  · unfold Bitmap.init
    rw [if_pos (by exact .inr (by omega))]

end

/-- The stored limit is a number of words. -/
theorem maxSize_limited {bits : Int} (positive : 1 ≤ bits) (fits : bits ≤ intMax) :
    (Bitmap.limited (some bits)).maxSize = (bits + 63) / 64 := by
  change int32 (Bitmap.wordsFor bits) = _
  rw [wordsFor_eq positive fits]
  unfold intMax at fits
  exact int32_of_mem (by omega) (by omega)

section Start

variable {limit : Option Int} {size : Int}
  (valid : ∀ bits ∈ limit, 1 ≤ bits ∧ bits ≤ intMax) (positive : 1 ≤ size)
  (within : size ≤ limitBits limit)

include valid within in
theorem size_le_intMax : size ≤ intMax := by
  cases limit with
  | none => exact within
  | some bits => exact le_trans within (valid bits rfl).2

include valid positive within in
/-- Under those limits the stored number of words is at least the limit less one. -/
theorem TakesLimit.stored (takes : TakesLimit limit size) :
    size ≤ (Bitmap.limited limit).maxSize
      ∧ limitBits limit ≤ (Bitmap.limited limit).maxSize + 1 := by
  obtain rfl | ⟨two, rfl⟩ := takes
  · exact ⟨within, by simp [limitBits, Bitmap.limited, Bitmap.construct]⟩
  cases limit with
  | none => simp [limitBits, intMax] at two
  | some bits =>
    obtain ⟨low, high⟩ := valid bits rfl
    change bits ≤ 2 at two
    rw [maxSize_limited low high]
    change 1 ≤ _ ∧ bits ≤ _
    omega

include valid positive within in
/-- A new bitmap takes every bit below its limit under those limits only. -/
theorem start_accepts_iff :
    (∃ s, start limit size = some s ∧ ∀ bit, 0 ≤ bit → bit < limitBits limit →
      ∃ after, s.bm.setBit bit = some (.success, after)) ↔ TakesLimit limit size := by
  rw [start_eq positive (size_le_intMax valid within)]
  constructor
  · rintro ⟨s, started, accepts⟩
    split_ifs at started with inside
    cases limit with
    | none => exact .inl rfl
    | some bits =>
      -- The last bit below the limit is refused unless it is at most the number of words.
      obtain ⟨low, high⟩ := valid bits rfl
      obtain ⟨after, sets⟩ := accepts (bits - 1) (by omega) (show bits - 1 < bits by omega)
      have last : ¬ (bits - 1 < 0 ∨ s.bm.maxSize < bits - 1) := by
        intro refused
        rw [Bitmap.setBit_of_gt refused] at sets
        cases sets
      cases started
      rw [maxSize_limited low high] at inside last
      exact .inr ⟨show bits ≤ 2 by omega, by omega⟩
  · intro takes
    obtain ⟨inside, limitFits⟩ := takes.stored valid positive within
    rw [if_pos inside]
    refine ⟨_, rfl, fun bit nonneg below => ?_⟩
    exact Bitmap.Sized.accepts (by exact length_replicate) (le_trans positive inside)
      limitFits nonneg below

include valid positive within in
/-- Under those limits, and with bits that an `int` counts, a new bitmap stores the empty set. -/
theorem TakesLimit.inv_start (takes : TakesLimit limit size) (countable : size ≤ 2 ^ 31 - 64) :
    ∃ s, start limit size = some s ∧ Inv (limitBits limit) s := by
  obtain ⟨inside, limitFits⟩ := takes.stored valid positive within
  rw [start_eq positive (size_le_intMax valid within), if_pos inside]
  refine ⟨_, rfl, length_replicate, fun i => ?_, ?_, le_trans positive inside, limitFits⟩
  · change bitAt (List.replicate _ _) i = _
    rw [bitAt_zeros, decide_eq_false (Finset.notMem_empty i)]
  · change 64 * ((size + 63) / 64).toNat < 2 ^ 31
    omega

end Start

/-- A new bitmap takes every bit below its limit exactly under those limits; then every run of
calls that keeps the number of bits inside an `int` answers as a set of bit numbers does. -/
theorem bitmap_refines_set_within_limit (limit : Option Int) (size : Int)
    (valid : ∀ bits ∈ limit, 1 ≤ bits ∧ bits ≤ intMax) (positive : 1 ≤ size)
    (within : size ≤ limitBits limit) :
    ((∃ s, start limit size = some s ∧ ∀ bit, 0 ≤ bit → bit < limitBits limit →
        ∃ after, s.bm.setBit bit = some (.success, after)) ↔ TakesLimit limit size)
    ∧ (TakesLimit limit size → size ≤ 2 ^ 31 - 64 → ∃ s, start limit size = some s ∧
        ∀ actions, Machine.Along step Countable s actions →
          ∃ t, Machine.exec step s actions = some t ∧ Refines (limitBits limit) t) := by
  refine ⟨start_accepts_iff valid positive within, fun takes countable => ?_⟩
  obtain ⟨s, started, inv⟩ := takes.inv_start valid positive within countable
  refine ⟨s, started, fun actions along => ?_⟩
  obtain ⟨t, ran, kept⟩ := Machine.exec_total_along (fun _ _ inv => inv.step) inv along
  exact ⟨t, ran, kept.refines⟩

/-- With the default limit a bitmap of a hundred bits grows and keeps its bits. -/
theorem unlimited_bitmap_refines_set :
    ∃ s, start none 100 = some s ∧
      ∃ t, Machine.exec step s [.setBit 3, .setBit 700, .clearBit 3, .setAllBits] = some t
        ∧ Refines intMax t := by
  have limits := (bitmap_refines_set_within_limit none 100 (by simp) (by decide) (by decide)).2
  obtain ⟨s, started, runs⟩ := limits (.inl rfl) (by decide)
  refine ⟨s, started, runs _ ?_⟩
  cases started
  decide +kernel

/-- A limit of 64 bits refuses an initial size of 64 bits and, for one bit, the bit number 2. -/
theorem limit_of_64_refuses_its_bits :
    start (some 64) 64 = none ∧ ((start (some 64) 1).bind (·.bm.setBit 2)).map Prod.fst
      = some .errBadParam := by
  decide +kernel

end BitmapState

end EduMpi.Opal
