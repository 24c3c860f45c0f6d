import EduMpi.Opal.PointerArray

/-! The three records of which slots are used agree, and the lowest free slot is known. -/

namespace EduMpi.Opal

open Ints Slots Words List
open Option hiding guard
open Function (update update_apply update_eq_self_iff update_of_ne update_self)

namespace PointerArray

variable {α : Type} {table : PointerArray α} {index k : Nat}
  {initialAllocation maxSize blockSize : Int} {start : Nat}

section Zero

variable {x : BitVec 64}

/-- A halving keeps the lowest zero and leaves it in the lower half. -/
theorem skipOnes_spec (mask : BitVec 64) (half place : Nat) (below : half < 64)
    (masks : mask = BitVec.twoPow 64 half - 1#64) (zero : x.getLsbD k = false)
    (ones : ∀ j < k, x.getLsbD j = true) (before : place ≤ k) (near : k < place + 2 * half) :
    ∃ next, skipOnes mask half (x >>> place, place) = (x >>> next, next)
      ∧ next ≤ k ∧ k < next + half := by
  -- The masked bits are all ones exactly if the zero is not among them.
  have skips : (x >>> place) &&& mask = mask ↔ place + half ≤ k := by
    subst masks
    constructor
    · intro all
      by_contra inside
      have bit := congrArg (·.getLsbD (k - place)) all
      simp only [BitVec.getLsbD_and, BitVec.getLsbD_ushiftRight, getLsbD_twoPow_sub_one below,
        show place + (k - place) = k by omega, zero] at bit
      rw [decide_eq_true (by omega)] at bit
      cases bit
    · intro behind
      apply BitVec.eq_of_getLsbD_eq
      intro i _
      rw [BitVec.getLsbD_and, BitVec.getLsbD_ushiftRight, getLsbD_twoPow_sub_one below]
      by_cases low : i < half
      · rw [ones (place + i) (by omega), Bool.true_and]
      · rw [decide_eq_false low, Bool.and_false]
  unfold skipOnes
  split
  · rename_i all
    refine ⟨place + half, ?_, skips.mp all, by omega⟩
    rw [BitVec.shiftRight_add]
  · rename_i notAll
    exact ⟨place, rfl, before, by rw [skips] at notAll; omega⟩

/-- Six halvings find the lowest zero of a word. -/
theorem zeroOf_eq (below : k < 64) (zero : x.getLsbD k = false)
    (ones : ∀ j < k, x.getLsbD j = true) : zeroOf x = k := by
  -- Every mask halves the range in which the zero is, down to one place.
  obtain ⟨a, to32, lowA, highA⟩ :=
    skipOnes_spec 0xFFFFFFFF 32 0 (by decide) (by decide) zero ones (by omega) (by omega)
  obtain ⟨b, to16, lowB, highB⟩ :=
    skipOnes_spec 0xFFFF 16 a (by decide) (by decide) zero ones lowA (by omega)
  obtain ⟨c, to8, lowC, highC⟩ :=
    skipOnes_spec 0xFF 8 b (by decide) (by decide) zero ones lowB (by omega)
  obtain ⟨d, to4, lowD, highD⟩ :=
    skipOnes_spec 0xF 4 c (by decide) (by decide) zero ones lowC (by omega)
  obtain ⟨e, to2, lowE, highE⟩ :=
    skipOnes_spec 0x3 2 d (by decide) (by decide) zero ones lowD (by omega)
  obtain ⟨f, to1, lowF, highF⟩ :=
    skipOnes_spec 0x1 1 e (by decide) (by decide) zero ones lowE (by omega)
  rw [BitVec.ushiftRight_zero] at to32
  unfold zeroOf
  rw [to32, to16, to8, to4, to2, to1]
  omega

end Zero

/-- The scan from the word of a number on stops at the word of the lowest zero. -/
theorem firstWithZero_eq {words : List (BitVec 64)} (zero : bitAt words k = false)
    (inside : k < 64 * words.length) (ones : ∀ i < k, bitAt words i = true)
    (before : start ≤ k / 64) :
    firstWithZero (words.drop start) start = some (k / 64, words.getD (k / 64) 0#64) := by
  -- By induction on the words that are still full.
  induction left : k / 64 - start generalizing start with
  | zero =>
    have here : start = k / 64 := by omega
    subst here
    have unfilled : words.getD (k / 64) 0#64 ≠ BitVec.allOnes 64 := by
      intro full
      rw [bitAt, full, BitVec.getLsbD_allOnes, decide_eq_true (Nat.mod_lt k (by decide))] at zero
      cases zero
    rw [drop_eq_getElem_cons (by omega), firstWithZero, ← getD_eq_getElem _ 0#64, if_neg unfilled]
  | succ n ih =>
    -- Every number of an earlier word is below the zero.
    have full : words.getD start 0#64 = BitVec.allOnes 64 := by
      apply BitVec.eq_of_getLsbD_eq
      intro j below
      have one := ones (64 * start + j) (by omega)
      rw [← bitAt_word below, one, BitVec.getLsbD_allOnes, decide_eq_true below]
    rw [drop_eq_getElem_cons (by omega), firstWithZero, ← getD_eq_getElem _ 0#64,
      if_pos full, ih (by omega) (by omega)]

/-- A slot is marked as used. -/
def used (table : PointerArray α) (i : Nat) : Bool := bitAt table.freeBits i

/-- The number of slots that are marked as used. -/
def usedSlots (table : PointerArray α) : Nat := (range table.addr.length).countP table.used

theorem usedSlots_le : table.usedSlots ≤ table.addr.length :=
  countP_le_length.trans length_range.le

/-- The bits and the number of free slots agree with the slots. A used slot may hold the null
pointer, if that is what was added. -/
structure Marked (table : PointerArray α) : Prop where
  slots : (table.addr.length : Int) = table.size
  words : table.freeBits.length = elemCount table.size
  holds : ∀ i, (table.value i).isSome → table.used i = true
  ends : ∀ i, table.addr.length ≤ i → table.used i = false
  free : table.numberFree + table.usedSlots = table.size
  block : 1 ≤ table.blockSize

/-- The smallest index whose slot, inside the array or behind it, is not used. -/
def SmallestFree (table : PointerArray α) (index : Nat) : Prop :=
  (∀ i < index, table.used i = true) ∧ table.used index = false

/-- All records agree. -/
structure Records (table : PointerArray α) : Prop extends Marked table where
  lowest : ∃ lowest : Nat, table.lowestFree = lowest ∧ SmallestFree table lowest

/-- All records agree, and no null pointer takes a slot. -/
structure Inv (table : PointerArray α) : Prop extends Records table where
  filled : ∀ i, table.used i = (table.value i).isSome

/-- One more mark, or one less, changes the number of marks by what it makes of one slot. -/
theorem countP_range_update {f : Nat → Bool} {n : Nat} (inside : index < n) (mark : Bool) :
    (range n).countP (update f index mark) + (f index).toNat = (range n).countP f + mark.toNat := by
  induction n with
  | zero => omega
  | succ n ih =>
    simp only [range_succ, countP_append, countP_singleton]
    by_cases last : index = n
    · -- The marks of the slots before are the same.
      subst last
      have before : (range index).countP (update f index mark) = (range index).countP f :=
        countP_congr fun i below => by
          rw [update_of_ne (by have := mem_range.mp below; omega)]
      rw [before, update_self]
      cases f index <;> cases mark <;> simp
    · -- An earlier slot: the last one counts as before.
      rw [update_of_ne (Ne.symm last)]
      have := ih (by omega)
      omega

/-- An array without a pointer. -/
theorem inv_empty {slots : Int} (nonneg : 0 ≤ slots) (block : 1 ≤ blockSize) :
    Inv (⟨0, slots, slots, maxSize, blockSize, List.replicate (elemCount slots) 0#64,
      List.replicate slots.toNat none⟩ : PointerArray α) := by
  -- No slot holds anything and no bit is set.
  have empty (i : Nat) : held (List.replicate slots.toNat (none : Option α)) i = none :=
    held_replicate_none
  have zeros (i : Nat) : bitAt (List.replicate (elemCount slots) 0#64) i = false := bitAt_zeros
  have none_used : (range slots.toNat).countP (bitAt (List.replicate (elemCount slots) 0#64)) = 0 :=
    countP_eq_zero.mpr fun i _ => by simp [zeros]
  refine ⟨⟨⟨?_, length_replicate, fun i some => ?_, fun i _ => zeros i, ?_, block⟩, 0, rfl, nofun,
    zeros 0⟩, fun i => ?_⟩
  · simp only [length_replicate]
    omega
  · rw [value, empty] at some
    cases some
  · simp only [usedSlots, length_replicate]
    change slots + ((range slots.toNat).countP (bitAt _) : Nat) = slots
    rw [none_used]
    simp
  · rw [value, empty]
    exact zeros i

section Marked

variable (marked : Marked table)

include marked

theorem Marked.value_eq_none (free : table.used index = false) : table.value index = none := by
  by_contra holds
  have := marked.holds index (isSome_iff_ne_none.mpr holds)
  rw [free] at this
  cases this

theorem Marked.lt_of_used (inUse : table.used index = true) : index < table.addr.length := by
  by_contra outside
  rw [marked.ends index (by omega)] at inUse
  cases inUse

/-- No slot is free exactly if every one is marked. -/
theorem Marked.numberFree_eq_zero :
    table.numberFree = 0 ↔ ∀ i < table.addr.length, table.used i = true := by
  have slots := marked.slots
  have free := marked.free
  have most := table.usedSlots_le
  have all := countP_eq_length (p := table.used) (l := range table.addr.length)
  -- Free and used slots together are all slots, so none is free exactly if all are used.
  simp only [mem_range, length_range] at all
  rw [← all, ← usedSlots]
  omega

/-- The slots behind the end are free, so the smallest free index is not behind the first one. -/
theorem Marked.le_size (smallest : SmallestFree table index) : (index : Int) ≤ table.size := by
  rw [← marked.slots]
  by_contra behind
  have last := smallest.1 table.addr.length (by omega)
  rw [marked.ends _ (le_refl _)] at last
  cases last

/-- The search finds the lowest free slot when it starts at or before its word. -/
theorem Marked.findFirstZero (before : ∀ i < start, table.used i = true) :
    ∃ lowest : Nat, table.findFirstZero start = some (lowest : Int)
      ∧ SmallestFree table lowest := by
  have slots := marked.slots
  unfold PointerArray.findFirstZero
  by_cases full : table.numberFree = 0
  · -- A full array: the first free slot is the one behind its end.
    rw [if_pos full]
    exact ⟨table.addr.length, by rw [slots]; rfl, marked.numberFree_eq_zero.mp full,
      marked.ends _ (le_refl _)⟩
  rw [if_neg full]
  -- The least free slot, whose bit is the lowest zero.
  have some_free : ∃ i, table.used i = false := ⟨_, marked.ends _ (le_refl _)⟩
  have zero := Nat.find_spec some_free
  have ones (i : Nat) (below : i < Nat.find some_free) : table.used i = true :=
    Bool.eq_true_of_not_eq_false (Nat.find_min some_free below)
  generalize Nat.find some_free = k at zero ones
  -- Some slot is free, so the least of them is inside.
  have inside : k < table.addr.length := by
    by_contra outside
    exact full (marked.numberFree_eq_zero.mpr fun i inside => ones i (by omega))
  have behind : start ≤ k := by
    by_contra earlier
    rw [before k (by omega)] at zero
    cases zero
  have covered : k < 64 * table.freeBits.length := by
    rw [marked.words, elemCount]
    omega
  rw [firstWithZero_eq zero covered ones (by omega)]
  refine ⟨k, ?_, ones, zero⟩
  -- In its word the zero is at the remainder, with ones below it.
  have place : zeroOf (table.freeBits.getD (k / 64) 0#64) = k % 64 := by
    refine zeroOf_eq (Nat.mod_lt k (by decide)) zero fun j below => ?_
    have one := ones (64 * (k / 64) + j) (by omega)
    rwa [used, bitAt_word (by omega)] at one
  simp only [bind_eq_bind, bind_some, guard,
    if_pos (show ((k / 64 : Nat) : Int) < table.size by omega), Option.pure_def,
    some.injEq]
  omega

/-- A search that starts at or before the word of the lowest free slot completes the records. -/
theorem Marked.refreshLowest (before : ∀ i < start, table.used i = true) :
    ∃ lowest : Nat, table.refreshLowest start = some { table with lowestFree := lowest }
      ∧ Records { table with lowestFree := (lowest : Int) } := by
  obtain ⟨lowest, finds, smallest⟩ := marked.findFirstZero before
  exact ⟨lowest, by simp only [PointerArray.refreshLowest, finds]; rfl,
    { marked with }, lowest, rfl, smallest⟩

/-- Without a free slot the lowest one is the size. -/
theorem Marked.full (none_free : ¬ 0 < table.numberFree) :
    Records { table with lowestFree := table.size } := by
  have slots := marked.slots
  have free := marked.free
  -- The counter cannot be negative, as no more slots are marked than there are.
  have most := table.usedSlots_le
  have zero : table.numberFree = 0 := by omega
  exact ⟨{ marked with }, table.addr.length, marked.slots.symm,
    marked.numberFree_eq_zero.mp zero, marked.ends _ (le_refl _)⟩

/-- The growth of a size that an `int` holds reaches behind the slot asked for. -/
theorem Marked.roundUp {atLeast : Int} (nonneg : 0 ≤ atLeast)
    (fits : atLeast + 1 + table.blockSize ≤ intMax) :
    ∃ rounded, table.roundUp atLeast = some rounded ∧ atLeast < rounded := by
  have block := marked.block
  unfold PointerArray.roundUp
  rw [if_neg (by omega),
    show atLeast + 1 + table.blockSize - 1 = atLeast + table.blockSize by omega,
    Int.tdiv_eq_ediv_of_nonneg (by omega)]
  refine ⟨_, rfl, ?_⟩
  -- Rounding up adds less than a block, and never nothing.
  have remainder := Int.emod_lt_of_pos (atLeast + table.blockSize)
    (show 0 < table.blockSize by omega)
  have divides := Int.mul_ediv_add_emod (atLeast + table.blockSize) table.blockSize
  omega

end Marked

/-- The test of a slot's bit in its word tells whether the slot is used. -/
theorem and_ne_zero :
    (table.freeBits.getD (index / 64) 0#64 &&& 1#64 <<< (index % 64) ≠ 0#64)
      ↔ table.used index = true := by
  have test := and_twoPow_ne_zero (x := table.freeBits.getD (index / 64) 0#64)
    (Nat.mod_lt index (by decide))
  rw [used, bitAt, ← test, decide_eq_true_iff]
  rfl

section Marks

variable (marked : Marked table) (inside : index < table.addr.length)

include marked inside

theorem Marked.index_div_lt : index / 64 < table.freeBits.length := by
  have slots := marked.slots
  rw [marked.words, elemCount]
  omega

theorem Marked.word_eq :
    table.freeBits[index / 64]? = some (table.freeBits.getD (index / 64) 0#64) := by
  have there := marked.index_div_lt inside
  rw [getD_eq_getElem _ _ there, List.getElem?_eq_getElem there]

/-- Setting the bit of a slot passes its check exactly if the slot is free, whatever the slots and
counters are. -/
theorem Marked.setBit_eq (numberFree : Int) (addr : List (Option α)) :
    setBit { table with numberFree := numberFree, addr := addr } index
      = if table.used index = true then none else some { table with
          numberFree := numberFree
          addr := addr
          freeBits := table.freeBits.set (index / 64)
            (table.freeBits.getD (index / 64) 0#64 ||| BitVec.twoPow 64 (index % 64)) } := by
  simp only [setBit, marked.word_eq inside, bind_eq_bind, bind_some, guard]
  -- Marking a slot twice is what the assertion of the source excludes.
  by_cases inUse : table.used index = true
  · rw [if_neg (and_ne_zero.mpr inUse), if_pos inUse]
    rfl
  · rw [if_pos (not_not.mp (mt and_ne_zero.mp inUse)), if_neg inUse]
    rfl

/-- A slot whose bit changes keeps the records in agreement if the number of free slots follows and
no free slot keeps its pointer. -/
theorem Marked.remarked {word : BitVec 64} {mark : Bool} {numberFree : Int} {v : Option α}
    (bits : bitAt (table.freeBits.set (index / 64) word) = update table.used index mark)
    (counts : numberFree + mark.toNat = table.numberFree + (table.used index).toNat)
    (holds : v.isSome = true → mark = true) (lowestFree : Int) :
    Marked { table with
      lowestFree := lowestFree
      numberFree := numberFree
      freeBits := table.freeBits.set (index / 64) word
      addr := table.addr.set index v } where
  slots := by simpa using marked.slots
  words := by simpa using marked.words
  -- One slot changes; it holds something only if it is marked.
  holds i some := by
    change (held (table.addr.set index v) i).isSome = true at some
    change bitAt _ i = true
    rw [held_set inside, update_apply] at some
    rw [bits, update_apply]
    split
    · rename_i here
      rw [if_pos here] at some
      exact holds some
    · rename_i other
      rw [if_neg other] at some
      exact marked.holds i some
  ends i behind := by
    simp only [length_set] at behind
    change bitAt _ i = false
    rw [bits, update_of_ne (by omega)]
    exact marked.ends i behind
  free := by
    -- The counter moves by what the mark does.
    have marks := countP_range_update (f := table.used) inside mark
    have before := marked.free
    simp only [usedSlots, length_set] at before ⊢
    change numberFree + (countP (fun i => bitAt _ i) _ : Nat) = table.size
    rw [show (fun i => bitAt (table.freeBits.set (index / 64) word) i) = update table.used index mark
      from bits]
    omega
  block := marked.block

end Marks

/-- The array with a pointer in one more slot, before its lowest free slot is searched. -/
def occupied (table : PointerArray α) (index : Nat) (v : Option α) : PointerArray α :=
  { table with
    numberFree := table.numberFree - 1
    addr := table.addr.set index v
    freeBits := table.freeBits.set (index / 64)
      (table.freeBits.getD (index / 64) 0#64 ||| BitVec.twoPow 64 (index % 64)) }

section Occupied

variable (marked : Marked table) (inside : index < table.addr.length) (v : Option α)

include inside in
theorem value_occupied : (table.occupied index v).value = update table.value index v :=
  held_set inside

include marked inside in
theorem Marked.used_occupied : (table.occupied index v).used = update table.used index true := by
  funext i
  change bitAt (table.freeBits.set _ _) i = _
  rw [bitAt_set_or (marked.index_div_lt inside), update_apply]
  change (_ || table.used i) = _
  split <;> simp [*]

include marked inside in
/-- Using a free slot keeps the records in agreement. -/
theorem Marked.occupied (free : table.used index = false) : Marked (table.occupied index v) :=
  marked.remarked inside (marked.used_occupied inside v) (by rw [free]; simp) (fun _ => rfl) _

include marked inside in
theorem Marked.occupy_eq (free : table.used index = false) :
    table.occupy index v = some (table.occupied index v) := by
  have unused : ¬ table.used index = true := by simp [free]
  simp only [PointerArray.occupy, marked.value_eq_none free, store, if_pos inside, guard,
    bind_eq_bind, Option.pure_def, bind_some]
  exact (marked.setBit_eq inside _ _).trans (if_neg unused)

end Occupied

/-- The search for a free slot does not read the slots. -/
theorem refreshLowest_addr (table : PointerArray α) (index : Nat) (addr : List (Option α)) :
    refreshLowest { table with addr := addr } index
      = (table.refreshLowest index).map fun t => { t with addr := addr } := by
  simp only [refreshLowest, bind_eq_bind, map_bind]
  rfl

/-- The limits of an array, which no call changes. -/
def limits (table : PointerArray α) : Int × Int := (table.maxSize, table.blockSize)

/-- The limits, and the size that no call exceeds. -/
def bounds (table : PointerArray α) : (Int × Int) × Int :=
  (table.limits, max table.size table.maxSize)

/-- A call that grows the array stays inside an `int`. -/
def Fits (table : PointerArray α) : Action α → Prop
  | .add _ => table.numberFree = 0 → table.size + 1 + 1 + table.blockSize ≤ intMax
  | .setItem index _ => table.size ≤ index → index + 1 + table.blockSize ≤ intMax
  | .testAndSetItem index _ =>
    0 ≤ index ∧ (table.size ≤ index → index + 1 + table.blockSize ≤ intMax)
  | .setSize newSize => table.size < newSize → newSize + 1 + table.blockSize ≤ intMax
  | .removeAll => True

instance (table : PointerArray α) : DecidablePred table.Fits
  | .add _ => inferInstanceAs (Decidable (_ → _))
  | .setItem _ _ => inferInstanceAs (Decidable (_ → _))
  | .testAndSetItem _ _ => inferInstanceAs (Decidable (_ ∧ (_ → _)))
  | .setSize _ => inferInstanceAs (Decidable (_ → _))
  | .removeAll => isTrue trivial

/-- The array is full one slot below its limit, where an addition asks for one slot too many. -/
def OneShort (table : PointerArray α) : Prop :=
  table.numberFree = 0 ∧ table.size + 1 = table.maxSize

instance (table : PointerArray α) : Decidable table.OneShort := inferInstanceAs (Decidable (_ ∧ _))

section Records

variable (records : Records table)

include records

/-- A larger array has the same pointers, and its new slots are free. -/
theorem Records.resize {newSize : Int} (grows : table.size ≤ newSize) :
    Records (table.resize newSize) ∧ (table.resize newSize).value = table.value
      ∧ (table.resize newSize).used = table.used := by
  have slots := records.slots
  have all : table.addr.take newSize.toNat = table.addr := take_of_length_le (by omega)
  have words : elemCount table.size ≤ elemCount newSize := by
    unfold elemCount
    omega
  -- Growing takes all words over and adds zeros behind them.
  have allWords : table.freeBits.take (elemCount newSize) = table.freeBits :=
    take_of_length_le (by rw [records.words]; exact words)
  have value : (table.resize newSize).value = table.value := by
    funext i
    simp only [PointerArray.resize, PointerArray.value, all]
    exact held_append_none
  have used : (table.resize newSize).used = table.used := by
    funext i
    simp only [PointerArray.resize, PointerArray.used, allWords]
    exact bitAt_append_zeros
  have length : (table.resize newSize).addr.length = newSize.toNat := by
    simp only [PointerArray.resize, all, length_append, length_replicate]
    omega
  -- None of the new slots is marked.
  have marks : (table.resize newSize).usedSlots = table.usedSlots := by
    obtain ⟨more, total⟩ : ∃ more, newSize.toNat = table.addr.length + more :=
      ⟨newSize.toNat - table.addr.length, by omega⟩
    rw [usedSlots, length, used, total, range_add, countP_append, usedSlots, Nat.add_eq_left,
      countP_eq_zero]
    rintro i listed
    obtain ⟨k, -, rfl⟩ := mem_map.mp listed
    simp [records.ends]
  refine ⟨⟨⟨?_, ?_, ?_, ?_, ?_, records.block⟩, ?_⟩, value, used⟩
  · rw [length]
    show _ = newSize
    omega
  · simp only [PointerArray.resize, allWords, length_append, length_replicate, records.words]
    omega
  · rw [value, used]
    exact records.holds
  · rw [length, used]
    exact fun i behind => records.ends i (by omega)
  · have free := records.free
    rw [marks]
    show table.numberFree + (newSize - table.size) + _ = newSize
    omega
  · -- A full array's lowest free slot is its size, which is the first new slot.
    unfold SmallestFree
    rw [used]
    exact records.lowest

/-- The array grows to a slot behind its end exactly if the slot is below the limit. -/
theorem Records.growTable {atLeast : Int} (behind : table.size ≤ atLeast)
    (fits : atLeast + 1 + table.blockSize ≤ intMax) :
    ∃ after, table.growTable atLeast = some (decide (atLeast < table.maxSize), after)
      ∧ Records after ∧ after.value = table.value ∧ after.used = table.used
      ∧ after.bounds = table.bounds
      ∧ (atLeast < table.maxSize → atLeast < after.size)
      ∧ (¬ atLeast < table.maxSize → after = table) := by
  have slots := records.slots
  obtain ⟨rounded, rounds, above⟩ := records.toMarked.roundUp (show 0 ≤ atLeast by omega) fits
  unfold PointerArray.growTable growTableWith
  simp only [rounds, bind_eq_bind, bind_some]
  -- An index below the limit is reached, even if the rounded size had to be cut to the limit.
  by_cases below : atLeast < table.maxSize
  · rw [if_neg (by omega), if_neg (by simp; omega), if_neg (by simp), decide_eq_true below]
    obtain ⟨kept, value, used⟩ :=
      records.resize (show table.size ≤ min rounded table.maxSize by omega)
    have bounds : max (min rounded table.maxSize) table.maxSize = max table.size table.maxSize := by
      omega
    exact ⟨_, rfl, kept, value, used, Prod.ext rfl bounds,
      fun _ => show atLeast < min rounded table.maxSize by omega,
      fun not_below => absurd below not_below⟩
  · rw [if_pos (by omega), decide_eq_false below]
    exact ⟨_, rfl, records, rfl, rfl, rfl, fun is_below => absurd is_below below, fun _ => rfl⟩

/-- A slot other than the lowest free one can be used without a search. -/
theorem Records.occupied (inside : index < table.addr.length) (free : table.used index = false)
    (other : (index : Int) ≠ table.lowestFree) (v : Option α) :
    Records (table.occupied index v) := by
  obtain ⟨place, eq, before, lowest⟩ := records.lowest
  have used := records.toMarked.used_occupied inside v
  refine ⟨records.toMarked.occupied inside v free, place, eq, fun i below => ?_, ?_⟩
  · -- The lowest free slot was another one, and stays it.
    rw [used, update_apply]
    split
    · rfl
    · exact before i below
  · rw [used, update_of_ne (by omega)]
    exact lowest

/-- The lowest free slot of an array that has a free slot. -/
theorem Records.lowest_lt (some_free : table.numberFree ≠ 0) : table.lowestFree < table.size := by
  obtain ⟨lowest, eq, before, -⟩ := records.lowest
  have slots := records.slots
  by_contra outside
  exact some_free (records.toMarked.numberFree_eq_zero.mpr fun i below => before i (by omega))

/-- Everything below the lowest free slot is used, so the search for the next one may start at
its word. -/
theorem Records.refresh_occupied (inside : index < table.addr.length)
    (free : table.used index = false) (atLowest : (index : Int) = table.lowestFree)
    (v : Option α) :
    ∃ lowest : Nat, (table.occupied index v).refreshLowest index
        = some { table.occupied index v with lowestFree := lowest }
      ∧ Records { table.occupied index v with lowestFree := (lowest : Int) } := by
  obtain ⟨place, eq, before, -⟩ := records.lowest
  refine (records.toMarked.occupied inside v free).refreshLowest fun i below => ?_
  rw [records.toMarked.used_occupied inside, update_of_ne (by omega)]
  exact before i (by omega)

/-- An array that has a free slot after it has grown, if it can. -/
theorem Records.makeRoom
    (fits : table.numberFree = 0 → table.size + 1 + 1 + table.blockSize ≤ intMax) :
    ∃ grown after, table.makeRoom = some (grown, after) ∧ Records after
      ∧ after.value = table.value ∧ after.used = table.used ∧ after.bounds = table.bounds
      ∧ (grown = true ↔ ¬ (table.numberFree = 0 ∧ table.maxSize ≤ table.size + 1))
      ∧ (grown = true → after.numberFree ≠ 0) ∧ (grown = false → after = table) := by
  unfold PointerArray.makeRoom
  by_cases full : table.numberFree = 0
  · rw [if_pos full]
    obtain ⟨after, grows, kept, value, used, bounds, larger, unchanged⟩ :=
      records.growTable (show table.size ≤ table.size + 1 by omega) (fits full)
    refine ⟨_, after, grows, kept, value, used, bounds, ?_, fun grown => ?_, fun not_grown => ?_⟩
    · rw [decide_eq_true_iff]
      omega
    · -- The slot behind the old end is free.
      have larger := larger (of_decide_eq_true grown)
      have oldSlots := records.slots
      have slots := kept.slots
      rw [Ne, kept.toMarked.numberFree_eq_zero]
      intro all_used
      have last := all_used table.addr.length (by omega)
      rw [used, records.ends _ (le_refl _)] at last
      cases last
    · exact unchanged (of_decide_eq_false not_grown)
  · rw [if_neg full]
    exact ⟨true, table, rfl, records, rfl, rfl, rfl, by simp [full], fun _ => full, by simp⟩

/-- An array that has a slot after it has grown, if it can. -/
theorem Records.makeRoomAt
    (fits : table.size ≤ index → (index : Int) + 1 + table.blockSize ≤ intMax) :
    ∃ grown after, table.makeRoomAt index = some (grown, after) ∧ Records after
      ∧ after.value = table.value ∧ after.used = table.used ∧ after.bounds = table.bounds
      ∧ (grown = true ↔ (index : Int) < table.size ∨ (index : Int) < table.maxSize)
      ∧ (grown = true → (index : Int) < after.size) ∧ (grown = false → after = table) := by
  unfold PointerArray.makeRoomAt
  by_cases behind : table.size ≤ index
  · rw [if_pos behind]
    obtain ⟨after, grows, kept, value, used, bounds, larger, unchanged⟩ :=
      records.growTable behind (fits behind)
    refine ⟨_, after, grows, kept, value, used, bounds, ?_,
      fun grown => larger (of_decide_eq_true grown),
      fun not_grown => unchanged (of_decide_eq_false not_grown)⟩
    rw [decide_eq_true_iff]
    omega
  · rw [if_neg behind]
    exact ⟨true, table, rfl, records, rfl, rfl, rfl, by simp; omega, fun _ => by omega, by simp⟩

/-- An addition uses the smallest free index, and fails only on a full array that may not grow. -/
theorem Records.add (v : Option α)
    (fits : table.numberFree = 0 → table.size + 1 + 1 + table.blockSize ≤ intMax) :
    ∃ result after, table.add v = some (result, after) ∧ Records after
      ∧ after.bounds = table.bounds
      ∧ (table.numberFree = 0 ∧ table.maxSize ≤ table.size + 1 →
          result = .error .errOutOfResource ∧ after = table)
      ∧ (¬ (table.numberFree = 0 ∧ table.maxSize ≤ table.size + 1) →
          ∃ index, result = .ok index ∧ SmallestFree table index
            ∧ after.value = update table.value index v
            ∧ after.used = update table.used index true) := by
  obtain ⟨grown, room, makes, kept, value, used, bounds, grows, frees, unchanged⟩ :=
    records.makeRoom fits
  unfold PointerArray.add
  simp only [makes, bind_eq_bind, bind_some]
  cases grown with
  | false =>
    have full : table.numberFree = 0 ∧ table.maxSize ≤ table.size + 1 := by simpa using grows
    exact ⟨_, _, rfl, kept, bounds, fun _ => ⟨rfl, unchanged rfl⟩,
      fun not_full => absurd full not_full⟩
  | true =>
    rw [if_neg (by simp)]
    have not_full := grows.mp rfl
    have some_free := frees rfl
    have lowest_lt := kept.lowest_lt some_free
    obtain ⟨index, eq, smallest⟩ := kept.lowest
    have free := smallest.2
    have slots := kept.slots
    have counted := kept.free
    have most := room.usedSlots_le
    rw [eq] at lowest_lt
    have inside : index < room.addr.length := by omega
    -- Growing has moved nothing, so the slot found is the smallest free one of the array before.
    have effect : SmallestFree table index ∧ (room.occupied index v).value = update table.value index v
        ∧ (room.occupied index v).used = update table.used index true := by
      refine ⟨by unfold SmallestFree at smallest ⊢; rwa [used] at smallest, ?_, ?_⟩
      · rw [value_occupied inside, value]
      · rw [kept.toMarked.used_occupied inside, used]
    simp only [eq, guard, if_pos (show 0 < room.size by omega),
      if_pos (show 0 ≤ (index : Int) ∧ (index : Int) < room.size by omega),
      if_pos (show 0 < room.numberFree ∧ room.numberFree ≤ room.size by omega), bind_some,
      Int.toNat_natCast, kept.toMarked.occupy_eq inside v free]
    split
    · obtain ⟨lowest, refreshes, final⟩ := kept.refresh_occupied inside free eq.symm v
      rw [refreshes]
      exact ⟨_, _, rfl, final, bounds, fun full => absurd full not_full,
        fun _ => ⟨index, rfl, effect⟩⟩
    · -- The last free slot was taken.
      rename_i none_left
      exact ⟨_, _, rfl, (kept.toMarked.occupied inside v free).full none_left, bounds,
        fun full => absurd full not_full, fun _ => ⟨index, rfl, effect⟩⟩

/-- A test succeeds exactly for a free slot of the array or of the array grown to it, if the slot is
not taken by a null pointer. -/
theorem Records.testAndSetItem (v : Option α)
    (fits : table.size ≤ index → (index : Int) + 1 + table.blockSize ≤ intMax)
    (whole : table.value index = none → table.used index = false) :
    ∃ taken after, table.testAndSetItem index v = some (taken, after) ∧ Records after
      ∧ after.bounds = table.bounds
      ∧ (taken = true ↔ table.value index = none
          ∧ ((index : Int) < table.size ∨ (index : Int) < table.maxSize))
      ∧ (taken = true → after.value = update table.value index v
          ∧ after.used = update table.used index true)
      ∧ (taken = false → after = table) := by
  unfold PointerArray.testAndSetItem
  simp only [Option.pure_def, bind_eq_bind, Int.toNat_natCast]
  have slots := records.slots
  by_cases inUse : (table.value index).isSome
  · have inside := records.toMarked.lt_of_used (records.holds index inUse)
    rw [if_pos ⟨by omega, inUse⟩]
    refine ⟨_, _, rfl, records, rfl, ?_, nofun, fun _ => rfl⟩
    simp [isSome_iff_ne_none.mp inUse]
  · have empty : table.value index = none := by simpa using inUse
    rw [if_neg (fun both => inUse both.2)]
    obtain ⟨grown, room, makes, kept, value, used, bounds, grows, reaches, unchanged⟩ :=
      records.makeRoomAt fits
    simp only [makes, bind_some]
    cases grown with
    | false =>
      refine ⟨_, _, rfl, kept, bounds, ?_, nofun, unchanged⟩
      have refused := grows
      simp only [Bool.false_eq_true, false_iff] at refused ⊢
      exact fun both => refused both.2
    | true =>
      rw [if_neg (by simp)]
      have inside := reaches rfl
      have roomSlots := kept.slots
      have inRoom : index < room.addr.length := by omega
      have free : room.used index = false := used ▸ whole empty
      have taken : true = true ↔ table.value index = none
          ∧ ((index : Int) < table.size ∨ (index : Int) < table.maxSize) :=
        ⟨fun _ => ⟨empty, grows.mp rfl⟩, fun _ => rfl⟩
      have effect : (room.occupied index v).value = update table.value index v
          ∧ (room.occupied index v).used = update table.used index true := by
        rw [value_occupied inRoom, value, kept.toMarked.used_occupied inRoom, used]
        exact ⟨rfl, rfl⟩
      simp only [kept.toMarked.occupy_eq inRoom v free, bind_some]
      split
      · split
        · rename_i atLowest
          obtain ⟨next, refreshes, final⟩ := kept.refresh_occupied inRoom free atLowest v
          rw [refreshes]
          exact ⟨_, _, rfl, final, bounds, taken, fun _ => effect, nofun⟩
        · rename_i other
          exact ⟨_, _, rfl, kept.occupied inRoom free other v, bounds, taken, fun _ => effect, nofun⟩
      · -- As in the addition, a full array has its lowest free slot behind the end.
        rename_i none_left
        exact ⟨_, _, rfl, (kept.toMarked.occupied inRoom v free).full none_left, bounds, taken,
          fun _ => effect, nofun⟩

/-- A slot can be overwritten as it is if it is used, or if it stays without a pointer. -/
theorem Records.store (inside : index < table.addr.length) {v : Option α}
    (holds : v.isSome = true → table.used index = true) :
    Records { table with addr := table.addr.set index v } := by
  refine ⟨⟨by simpa using records.slots, records.words, fun i some => ?_, ?_, ?_, records.block⟩,
    records.lowest⟩
  · change (held (table.addr.set index v) i).isSome = true at some
    change table.used i = true
    rw [held_set inside, update_apply] at some
    split at some
    · rename_i here
      exact here ▸ holds some
    · exact records.holds i some
  · simp only [length_set]
    exact records.ends
  · simp only [usedSlots, length_set]
    exact records.free

/-- A used slot that is freed may become the lowest free one. -/
theorem Records.release (inUse : table.used index = true) :
    ∃ marked, unsetBit { table with
          lowestFree := if index < table.lowestFree then index else table.lowestFree
          numberFree := table.numberFree + 1 } index = some marked
      ∧ marked.addr = table.addr ∧ marked.bounds = table.bounds
      ∧ marked.used = update table.used index false
      ∧ Records { marked with addr := table.addr.set index none } := by
  have inside := records.toMarked.lt_of_used inUse
  have bits : bitAt (table.freeBits.set (index / 64)
      (table.freeBits.getD (index / 64) 0#64 &&& ~~~BitVec.twoPow 64 (index % 64)))
        = update table.used index false := by
    funext i
    rw [bitAt_set_and (records.toMarked.index_div_lt inside), update_apply]
    change (_ && table.used i) = _
    split <;> simp [*]
  refine ⟨{ table with
      lowestFree := if index < table.lowestFree then index else table.lowestFree
      numberFree := table.numberFree + 1
      freeBits := table.freeBits.set (index / 64)
        (table.freeBits.getD (index / 64) 0#64 &&& ~~~BitVec.twoPow 64 (index % 64)) }, ?_, rfl, rfl,
    bits, records.toMarked.remarked inside bits (by rw [inUse]; simp) (by simp) _, ?_⟩
  · simp only [unsetBit, records.toMarked.word_eq inside, bind_eq_bind, bind_some, guard,
      if_pos (and_ne_zero.mpr inUse), ← xor_twoPow (Nat.mod_lt index (by decide)) inUse]
    rfl
  · -- The freed slot is the lowest one if it is below the lowest one so far.
    obtain ⟨lowest, eq, lower, free⟩ := records.lowest
    refine ⟨min lowest index, by simp only; omega, fun i before => ?_, ?_⟩
    · change bitAt _ i = true
      rw [bits, update_of_ne (by omega)]
      exact lower i (by omega)
    · change bitAt _ _ = false
      rw [bits, update_apply]
      split
      · rfl
      · rw [show min lowest index = lowest by omega]
        exact free

/-- Bringing the records up to date and overwriting the slot keeps them in agreement, if the slot is
not taken by a null pointer. -/
theorem Records.remark (inside : index < table.addr.length) (v : Option α)
    (whole : table.used index = (table.value index).isSome) :
    ∃ marked, table.remark index v = some marked ∧ marked.addr = table.addr
      ∧ marked.bounds = table.bounds ∧ marked.used = update table.used index v.isSome
      ∧ Records { marked with addr := table.addr.set index v } := by
  unfold PointerArray.remark
  -- Four cases: the slot is or becomes empty, and only a change touches the bits.
  cases v with
  | none =>
    cases here : table.value index with
    | none =>
      rw [here] at whole
      refine ⟨table, rfl, rfl, rfl, ?_, records.store inside nofun⟩
      exact (update_eq_self_iff.mpr whole.symm).symm
    | some old => exact records.release (by rw [whole, here]; rfl)
  | some p =>
    cases here : table.value index with
    | none =>
      have free : table.used index = false := by rw [whole, here]; rfl
      have marks := records.toMarked.used_occupied inside (some p)
      simp only [records.toMarked.setBit_eq inside, free, Bool.false_eq_true, if_false,
        bind_eq_bind, bind_some]
      split
      · rename_i atLowest
        -- The search does not read the slots, so it may run before the slot is overwritten.
        obtain ⟨next, refreshes, final⟩ := records.refresh_occupied inside free atLowest (some p)
        refine ⟨{ table.occupied index (some p) with lowestFree := (next : Int), addr := table.addr },
          ?_, rfl, rfl, marks, final⟩
        exact (refreshLowest_addr (table.occupied index (some p)) index table.addr).trans
          (by rw [refreshes]; rfl)
      · rename_i other
        exact ⟨_, rfl, rfl, rfl, marks, records.occupied inside free other (some p)⟩
    | some old =>
      have inUse : table.used index = true := by rw [whole, here]; rfl
      -- The lowest free slot is not a used one.
      have other : (index : Int) ≠ table.lowestFree := by
        obtain ⟨lowest, eq, -, free⟩ := records.lowest
        rintro same
        obtain rfl : index = lowest := by omega
        rw [inUse] at free
        cases free
      refine ⟨table, ?_, rfl, rfl, ?_, records.store inside fun _ => inUse⟩
      · simp only [guard, if_pos other]
        rfl
      · exact (update_eq_self_iff.mpr inUse.symm).symm

/-- A slot that is overwritten takes the pointer, and no other slot changes. -/
theorem Records.setItem (index : Int) (v : Option α)
    (fits : table.size ≤ index → index + 1 + table.blockSize ≤ intMax)
    (whole : table.used index.toNat = (table.value index.toNat).isSome) :
    ∃ rc after, table.setItem index v = some (rc, after) ∧ Records after
      ∧ after.bounds = table.bounds
      ∧ (rc = .success ↔ 0 ≤ index ∧ (index < table.size ∨ index < table.maxSize))
      ∧ (rc = .success → after.value = update table.value index.toNat v
          ∧ after.used = update table.used index.toNat v.isSome)
      ∧ (rc ≠ .success → after = table) := by
  unfold PointerArray.setItem
  by_cases negative : index < 0
  · rw [if_pos negative]
    exact ⟨_, _, rfl, records, rfl, iff_of_false nofun (by omega), nofun, fun _ => rfl⟩
  rw [if_neg negative]
  obtain ⟨slot, rfl⟩ := Int.eq_ofNat_of_zero_le (show 0 ≤ index by omega)
  simp only [Int.toNat_natCast] at whole ⊢
  obtain ⟨grown, room, makes, kept, value, used, bounds, grows, reaches, unchanged⟩ :=
    records.makeRoomAt fits
  simp only [makes, bind_eq_bind]
  cases grown with
  | false =>
    have refused : ¬ _ := mt grows.mpr Bool.false_ne_true
    exact ⟨_, _, rfl, kept, bounds, iff_of_false nofun fun both => refused both.2, nofun,
      fun _ => unchanged rfl⟩
  | true =>
    have inside := reaches rfl
    have slots := kept.slots
    have inRoom : slot < room.addr.length := by omega
    obtain ⟨marked, remarks, addr, bounded, marks, final⟩ :=
      kept.remark inRoom v (by rw [used, value]; exact whole)
    simp only [guard, if_pos inside, bind_some, remarks, PointerArray.store, addr, if_pos inRoom]
    refine ⟨_, _, rfl, final, bounded.trans bounds, iff_of_true rfl ⟨by omega, grows.mp rfl⟩,
      fun _ => ⟨?_, ?_⟩, by simp⟩
    · change held (room.addr.set slot v) = _
      rw [held_set inRoom, ← value]
      rfl
    · exact marks.trans (by rw [used])

/-- A new size changes no slot. -/
theorem Records.setSize (newSize : Int)
    (fits : table.size < newSize → newSize + 1 + table.blockSize ≤ intMax) :
    ∃ rc after, table.setSize newSize = some (rc, after) ∧ Records after
      ∧ after.bounds = table.bounds ∧ after.value = table.value ∧ after.used = table.used := by
  unfold PointerArray.setSize
  split
  · rename_i larger
    obtain ⟨after, grows, kept, value, used, bounds, -⟩ :=
      records.growTable (show table.size ≤ newSize by omega) (fits larger)
    simp only [grows]
    exact ⟨_, _, rfl, kept, bounds, value, used⟩
  · exact ⟨_, _, rfl, records, rfl, rfl, rfl⟩

/-- Afterwards the array is empty, whatever it held. -/
theorem Records.removeAll : Inv table.removeAll ∧ table.removeAll.bounds = table.bounds := by
  have slots := records.slots
  have free := records.free
  unfold PointerArray.removeAll
  split
  · -- No slot is used, and so none holds a pointer.
    have none_used (i : Nat) : table.used i = false := by
      by_contra inUse
      have marked := Bool.eq_true_of_not_eq_false inUse
      have none : table.usedSlots = 0 := by omega
      exact countP_eq_zero.mp none i (mem_range.mpr (records.toMarked.lt_of_used marked)) marked
    refine ⟨⟨records, fun i => ?_⟩, rfl⟩
    rw [none_used, records.toMarked.value_eq_none (none_used i)]
    rfl
  · -- Every slot and every word is inside the size.
    have allSlots : table.addr.drop table.size.toNat = [] := drop_of_length_le (by omega)
    have allWords : table.freeBits.drop (elemCount table.size) = [] :=
      drop_of_length_le records.words.le
    rw [allSlots, allWords, append_nil, append_nil]
    exact ⟨inv_empty (by omega) records.block, rfl⟩

end Records

/-- A slot that takes a pointer when it is marked, or loses it with its mark, keeps the marks exact. -/
theorem Inv.updated {after : PointerArray α} {v : Option α} (inv : Inv table) (kept : Records after)
    (value : after.value = update table.value index v)
    (used : after.used = update table.used index v.isSome) : Inv after := by
  refine ⟨kept, fun i => ?_⟩
  rw [value, used, update_apply, update_apply]
  split
  · rfl
  · exact inv.filled i

theorem Inv.unchanged {after : PointerArray α} (inv : Inv table) (kept : Records after)
    (value : after.value = table.value) (used : after.used = table.used) : Inv after :=
  ⟨kept, by rw [value, used]; exact inv.filled⟩

/-- Where the marks are exact, the slots without a pointer are those that are not marked. -/
theorem Inv.used_eq_false (inv : Inv table) (empty : table.value index = none) :
    table.used index = false := by
  rw [inv.filled, empty]
  rfl

/-- Where the marks are exact, the free slots are those that hold the null pointer. -/
theorem Inv.numberFree_eq (inv : Inv table) :
    table.numberFree = (table.addr.countP isNone : Nat) := by
  have slots := inv.slots
  have free := inv.free
  have addr : table.addr = (range table.addr.length).map table.value := by
    refine ext_getElem (by simp) fun i inside _ => ?_
    simp [PointerArray.value, held_of_lt inside]
  have marks : table.usedSlots = table.addr.countP isSome := by
    rw [addr, countP_map, usedSlots]
    exact countP_congr fun i _ => by simp [inv.filled]
  have all := length_eq_countP_add_countP isSome (l := table.addr)
  have nones : table.addr.countP isNone = table.addr.countP fun v => decide ¬v.isSome = true :=
    countP_congr fun v _ => by cases v <;> simp
  omega

/-- The call adds no null pointer. -/
def Action.notNull : Action α → Bool
  | .add ptr => ptr.isSome
  | .testAndSetItem _ value => value.isSome
  | _ => true

/-- The records agree, and every call that stays inside an `int` does what it is for and leaves
the other slots alone. -/
structure Allocates (table : PointerArray α) : Prop where
  bits : ∀ i : Nat, (i : Int) < table.size →
    (bitAt table.freeBits i = true ↔ table.value i ≠ none)
  numberFree : table.numberFree = (table.addr.countP isNone : Nat)
  slots : (table.addr.length : Int) = table.size
  lowestFree : ∃ lowest : Nat, table.lowestFree = lowest ∧ (lowest : Int) ≤ table.size
    ∧ (∀ i < lowest, table.value i ≠ none) ∧ table.value lowest = none
  /-- An addition fails on an array that is full at its limit, and no other one does; the array that
  is full one slot below its limit is left out. -/
  adds : ∀ p, table.Fits (.add (some p)) → ¬ table.OneShort →
    ∃ result after, table.add (some p) = some (result, after)
      ∧ (table.numberFree = 0 ∧ table.maxSize ≤ table.size →
          result = .error .errOutOfResource ∧ after = table)
      ∧ (¬ (table.numberFree = 0 ∧ table.maxSize ≤ table.size) →
          ∃ index, result = .ok index ∧ (∀ i < index, table.value i ≠ none)
            ∧ table.value index = none ∧ after.value = update table.value index (some p))
  tests : ∀ (index : Nat) p, table.Fits (.testAndSetItem index (some p)) →
    ∃ taken after, table.testAndSetItem index (some p) = some (taken, after)
      ∧ (taken = true ↔ table.value index = none
          ∧ ((index : Int) < table.size ∨ (index : Int) < table.maxSize))
      ∧ (taken = true → after.value = update table.value index (some p))
      ∧ (taken = false → after = table)
  sets : ∀ index v, table.Fits (.setItem index v) → ∃ rc after,
    table.setItem index v = some (rc, after)
      ∧ (rc = .success → after.value = update table.value index.toNat v)
      ∧ (rc ≠ .success → after = table)
  sizes : ∀ newSize, table.Fits (.setSize newSize) → ∃ rc after,
    table.setSize newSize = some (rc, after) ∧ after.value = table.value

theorem Inv.smallestFree_iff (inv : Inv table) :
    SmallestFree table index ↔ (∀ i < index, table.value i ≠ none) ∧ table.value index = none := by
  simp only [SmallestFree, inv.filled, isSome_iff_ne_none, Option.isSome_eq_false_iff,
    Option.isNone_iff_eq_none]

theorem Inv.allocates (inv : Inv table) : Allocates table where
  bits i _ := by
    change table.used i = true ↔ _
    rw [inv.filled, isSome_iff_ne_none]
  numberFree := inv.numberFree_eq
  slots := inv.slots
  lowestFree := by
    obtain ⟨lowest, eq, smallest⟩ := inv.lowest
    exact ⟨lowest, eq, inv.toMarked.le_size smallest, inv.smallestFree_iff.mp smallest⟩
  adds p fits other := by
    obtain ⟨result, after, adds, -, -, refuses, accepts⟩ := inv.add (some p) fits
    unfold OneShort at other
    refine ⟨result, after, adds, fun full => refuses ⟨full.1, by omega⟩, fun room => ?_⟩
    obtain ⟨index, stored, smallest, value, -⟩ := accepts (by omega)
    obtain ⟨before, free⟩ := inv.smallestFree_iff.mp smallest
    exact ⟨index, stored, before, free, value⟩
  tests index p fits := by
    obtain ⟨taken, after, tests, -, -, free, stores, kept⟩ :=
      inv.testAndSetItem (some p) fits.2 inv.used_eq_false
    exact ⟨taken, after, tests, free, fun taken => (stores taken).1, kept⟩
  sets index v fits := by
    obtain ⟨rc, after, sets, -, -, -, stores, kept⟩ := inv.setItem index v fits (inv.filled _)
    exact ⟨rc, after, sets, fun succeeds => (stores succeeds).1, kept⟩
  sizes newSize fits := by
    obtain ⟨rc, after, sizes, -, -, value, -⟩ := inv.setSize newSize fits
    exact ⟨rc, after, sizes, value⟩

/-- Every call that adds no null pointer and stays inside an `int` returns and keeps the marks
exact. -/
theorem Inv.step (inv : Inv table) {action : Action α} (fits : table.Fits action)
    (proper : action.notNull = true) : ∃ after, table.step action = some after ∧ Inv after := by
  unfold PointerArray.step PointerArray.call
  cases action with
  -- Each call writes one slot and its mark together, or leaves the array as it was.
  | add v =>
    obtain ⟨p, rfl⟩ := isSome_iff_exists.mp proper
    obtain ⟨result, after, adds, kept, -, refuses, accepts⟩ := inv.add (some p) fits
    refine ⟨after, by simp [adds], ?_⟩
    by_cases full : table.numberFree = 0 ∧ table.maxSize ≤ table.size + 1
    · exact (refuses full).2 ▸ inv
    · obtain ⟨index, -, -, value, used⟩ := accepts full
      exact inv.updated kept value used
  | setItem index v =>
    obtain ⟨rc, after, sets, kept, -, -, stores, unchanged⟩ := inv.setItem index v fits (inv.filled _)
    refine ⟨after, by simp [sets], ?_⟩
    by_cases succeeds : rc = .success
    · exact inv.updated kept (stores succeeds).1 (stores succeeds).2
    · exact unchanged succeeds ▸ inv
  | testAndSetItem index v =>
    obtain ⟨p, rfl⟩ := isSome_iff_exists.mp proper
    obtain ⟨slot, rfl⟩ := Int.eq_ofNat_of_zero_le fits.1
    obtain ⟨taken, after, tests, kept, -, -, stores, unchanged⟩ :=
      inv.testAndSetItem (some p) fits.2 inv.used_eq_false
    refine ⟨after, by simp [tests], ?_⟩
    cases taken with
    | true => exact inv.updated kept (stores rfl).1 (stores rfl).2
    | false => exact unchanged rfl ▸ inv
  | setSize newSize =>
    obtain ⟨rc, after, sizes, kept, -, value, used⟩ := inv.setSize newSize fits
    exact ⟨after, by simp [sizes], inv.unchanged kept value used⟩
  | removeAll => exact ⟨_, rfl, inv.removeAll.1⟩

/-- A new array has the slots that were asked for, or one block of them, and all are free. -/
theorem init_eq (starts : init initialAllocation maxSize blockSize = (.success, some table)) :
    ∃ slots, 0 ≤ slots ∧ (slots = initialAllocation ∨ slots = blockSize) ∧ blockSize ≤ maxSize
      ∧ table = ⟨0, slots, slots, maxSize, if blockSize = 0 then 8 else blockSize,
        List.replicate (elemCount slots) 0#64, List.replicate slots.toNat none⟩ := by
  unfold init at starts
  split at starts
  · cases starts
  have chosen := ite_eq_or_eq (0 < initialAllocation) initialAllocation blockSize
  simp only at starts
  generalize (if 0 < initialAllocation then initialAllocation else blockSize) = slots at starts chosen
  split at starts
  · cases starts
  cases starts
  exact ⟨slots, by omega, chosen, by omega, rfl⟩

/-- A new array is empty. -/
theorem inv_init (block : 0 ≤ blockSize)
    (starts : init initialAllocation maxSize blockSize = (.success, some table)) : Inv table := by
  obtain ⟨slots, nonneg, -, -, rfl⟩ := init_eq starts
  refine inv_empty nonneg ?_
  split <;> omega

/-- In every run of an array with a block size that is not negative, whose calls stay inside an
`int` and add no null pointer, the records agree and every call does what it is for. -/
theorem pointer_array_allocates_smallest_free (initialAllocation maxSize blockSize : Int)
    (block : 0 ≤ blockSize)
    (starts : init initialAllocation maxSize blockSize = (.success, some table))
    (actions : List (Action α))
    (fits : Machine.Along step (fun t a => t.Fits a ∧ a.notNull = true) table actions) :
    ∃ after, Machine.exec step table actions = some after ∧ Allocates after := by
  obtain ⟨after, ran, inv⟩ :=
    Machine.exec_total_along (fun _ _ inv (proper : _ ∧ _) => inv.step proper.1 proper.2)
      (inv_init block starts) fits
  exact ⟨after, ran, inv.allocates⟩

/-- An array of one slot that grows by two, frees its first slot and uses it again. -/
theorem growing_array_allocates :
    ∃ table : PointerArray Nat, init 1 10 2 = (.success, some table) ∧
      ∃ after, Machine.exec step table [.add (some 5), .add (some 7), .testAndSetItem 4 (some 8),
        .setItem 0 none, .add (some 9), .setSize 7] = some after ∧ Allocates after := by
  refine ⟨_, rfl, ?_⟩
  exact pointer_array_allocates_smallest_free 1 10 2 (by decide) rfl _ (by decide +kernel)

/-- With a negative block size the second pointer is added outside the slots; and an array at its
limit refuses a pointer. -/
theorem negative_block_adds_outside :
    (∃ table : PointerArray Nat, init 1 10 (-1) = (.success, some table)
      ∧ (table.add (some 5)).bind (fun first => first.2.add (some 7)) = none)
    ∧ ∃ table : PointerArray Nat, init 1 1 1 = (.success, some table)
      ∧ ∃ first second, table.add (some 5) = some (.ok 0, first)
        ∧ first.add (some 7) = some (.error .errOutOfResource, second) :=
  ⟨⟨_, rfl, rfl⟩, _, rfl, _, _, rfl, rfl⟩

end PointerArray

end EduMpi.Opal
