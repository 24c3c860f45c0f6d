import EduMpi.Lib.Buddy
import EduMpi.Opal.HashTableLaws
import EduMpi.Shmem.BuddyBits
import Mathlib.Data.Set.Card

/-! The free blocks and the blocks in use partition the heap after every call. -/

namespace EduMpi.Shmem.BuddyHeap

open Buddy Opal Words Option
open Function (update update_eq_self update_of_ne update_self)

variable {heap : BuddyHeap} {vacant : Nat → Nat → Prop} {tiling : Tiling} {order i : Nat}
  {middle after : BuddyHeap}

/-- The orders of a heap are few enough for the 32-bit numbers of its blocks. -/
structure Small (heap : BuddyHeap) : Prop where
  min_le : heap.minOrder ≤ heap.maxOrder
  max_le : heap.maxOrder ≤ 32
  orders : heap.maxOrder - heap.minOrder ≤ 31

/-- The bits and counts of a heap tell which of its blocks are free. -/
structure Marks (heap : BuddyHeap) (vacant : Nat → Nat → Prop) : Prop extends Small heap where
  length : ∀ order, heap.minOrder ≤ order → order ≤ heap.maxOrder →
    (heap.bits order).length = bitsToLongs (2 ^ (heap.maxOrder - order))
  no_length : ∀ order, ¬ (heap.minOrder ≤ order ∧ order ≤ heap.maxOrder) → heap.bits order = []
  bit : ∀ order i, bitAt (heap.bits order) i = true ↔ vacant order i
  count : ∀ order, (heap.numFree order : ℕ∞) = {i | vacant order i}.encard
  inside : ∀ order i, vacant order i →
    heap.minOrder ≤ order ∧ order ≤ heap.maxOrder ∧ i < 2 ^ (heap.maxOrder - order)

/-- Two heaps differ in their blocks only. -/
structure Frame (heap after : BuddyHeap) : Prop where
  maxOrder : after.maxOrder = heap.maxOrder
  minOrder : after.minOrder = heap.minOrder
  symmetricHeap : after.symmetricHeap = heap.symmetricHeap

theorem Frame.refl : Frame heap heap := ⟨rfl, rfl, rfl⟩

theorem Frame.trans (first : Frame heap middle) (second : Frame middle after) : Frame heap after :=
  ⟨second.maxOrder.trans first.maxOrder, second.minOrder.trans first.minOrder,
    second.symmetricHeap.trans first.symmetricHeap⟩

/-- Two heaps differ in their free blocks only. -/
structure Same (heap after : BuddyHeap) : Prop extends Frame heap after where
  hashtable : after.symmetricHeapHashtable = heap.symmetricHeapHashtable

theorem Same.refl : Same heap heap := ⟨Frame.refl, rfl⟩

theorem Same.trans (first : Same heap middle) (second : Same middle after) : Same heap after :=
  ⟨first.toFrame.trans second.toFrame, second.hashtable.trans first.hashtable⟩

section Marking

/-- There are at most as many numbers below a bound as the bound says. -/
theorem encard_le_of_lt {numbers : Set Nat} {bound : Nat} (below : ∀ i ∈ numbers, i < bound) :
    numbers.encard ≤ bound := by
  have subset : numbers ⊆ (Finset.range bound : Set Nat) := fun i member =>
    Finset.mem_coe.mpr (Finset.mem_range.mpr (below i member))
  have le := Set.encard_le_encard subset
  rwa [Set.encard_coe_eq_coe_finsetCard, Finset.card_range] at le

/-- The blocks of an order are at most 2^31. -/
theorem Small.pow_le (small : Small heap) (atLeast : heap.minOrder ≤ order) :
    2 ^ (heap.maxOrder - order) ≤ 2 ^ 31 := by
  have orders := small.orders
  exact Nat.pow_le_pow_right (by decide) (by omega)

section

variable (marks : Marks heap vacant) (atLeast : heap.minOrder ≤ order)
  (atMost : order ≤ heap.maxOrder)

include marks atLeast atMost

theorem Marks.long_lt (below : i < 2 ^ (heap.maxOrder - order)) :
    i / 64 < (heap.bits order).length := by
  rw [marks.length order atLeast atMost, bitsToLongs]
  omega

/-- The array and the count of one order can be replaced. -/
theorem Marks.replace {after : Nat → Nat → Prop} {longs : List (BitVec 64)} {number : Nat}
    (sameLength : longs.length = (heap.bits order).length)
    (bit : ∀ j, bitAt longs j = true ↔ after order j)
    (count : (number : ℕ∞) = {j | after order j}.encard)
    (below : ∀ j, after order j → j < 2 ^ (heap.maxOrder - order))
    (others : ∀ o j, o ≠ order → (after o j ↔ vacant o j)) :
    Marks { heap with
      bits := update heap.bits order longs
      numFree := update heap.numFree order number } after where
  toSmall := { marks with }
  -- Each fact is about one order, and only one order was written.
  length o low high := by
    by_cases same : o = order
    · subst same
      simp only [update_self, sameLength]
      exact marks.length o low high
    · simp only [update_of_ne same]
      exact marks.length o low high
  no_length o outside := by
    have other : o ≠ order := by
      rintro rfl
      exact outside ⟨atLeast, atMost⟩
    simp only [update_of_ne other]
    exact marks.no_length o outside
  bit o j := by
    by_cases same : o = order
    · subst same
      simp only [update_self, bit]
    · simp only [update_of_ne same, marks.bit, others o j same]
  count o := by
    by_cases same : o = order
    · subst same
      simp only [update_self, count]
    · simp only [update_of_ne same, marks.count, others o _ same]
  inside o j member := by
    by_cases same : o = order
    · subst same
      exact ⟨atLeast, atMost, below j member⟩
    · exact marks.inside o j ((others o j same).mp member)

/-- A block that is marked as free joins the free blocks. -/
theorem Marks.markFree (below : i < 2 ^ (heap.maxOrder - order)) (occupied : ¬ vacant order i) :
    ∃ after, heap.markFree order i = some after ∧ Same heap after
      ∧ Marks after (fun o j => (o = order ∧ j = i) ∨ vacant o j) := by
  obtain ⟨longs, sets, sameLength, bits⟩ := setBit_spec (marks.long_lt atLeast atMost below)
  -- The marked block joins the free ones of its order, and was not among them.
  have joined : {j | (order = order ∧ j = i) ∨ vacant order j} = insert i {j | vacant order j} := by
    ext j
    simp
  have more : ((heap.numFree order + 1 : Nat) : ℕ∞) = (insert i {j | vacant order j}).encard := by
    rw [Set.encard_insert_of_notMem (by simpa using occupied), ← marks.count]
    rfl
  -- There are too few blocks for the count to reach its limit of 2^32.
  have all_below : ∀ j ∈ insert i {j | vacant order j}, j < 2 ^ (heap.maxOrder - order) := by
    rintro j (rfl | member)
    · exact below
    · exact (marks.inside order j member).2.2
  have bound := encard_le_of_lt all_below
  have few := marks.pow_le atLeast
  rw [← more, Nat.cast_le] at bound
  refine ⟨{ heap with
    bits := update heap.bits order longs
    numFree := update heap.numFree order ((heap.numFree order + 1) % 2 ^ 32) },
    by rw [BuddyHeap.markFree, sets]; rfl, ⟨⟨rfl, rfl, rfl⟩, rfl⟩,
    marks.replace atLeast atMost sameLength (fun j => ?_) ?_ (fun j member => ?_)
      (fun o j other => ?_)⟩
  · simp only [bits, Bool.or_eq_true, decide_eq_true_eq, true_and, marks.bit]
  · rw [Nat.mod_eq_of_lt (by omega), more, joined]
  · exact all_below j (joined ▸ member)
  · simp only [other, false_and, false_or]

end

/-- A free block that is marked as used leaves the free blocks. -/
theorem Marks.markUsed (marks : Marks heap vacant) (isFree : vacant order i) :
    ∃ after, heap.markUsed order i = some after ∧ Same heap after
      ∧ Marks after (fun o j => vacant o j ∧ ¬ (o = order ∧ j = i)) := by
  obtain ⟨atLeast, atMost, below⟩ := marks.inside order i isFree
  obtain ⟨longs, clears, sameLength, bits⟩ := clearBit_spec (marks.long_lt atLeast atMost below)
  -- Seen the other way round, the free blocks before are those after and this one.
  have removed :
      insert i {j | vacant order j ∧ ¬ (order = order ∧ j = i)} = {j | vacant order j} := by
    ext j
    by_cases here : j = i
    · simp [here, isFree]
    · simp [here]
  have counted := marks.count order
  have bound : (heap.numFree order : ℕ∞) ≤ (2 ^ (heap.maxOrder - order) : Nat) :=
    counted ▸ encard_le_of_lt fun j member => (marks.inside order j member).2.2
  have few := marks.pow_le atLeast
  rw [Nat.cast_le] at bound
  -- The block was counted, so the count is not zero.
  rw [← removed, Set.encard_insert_of_notMem (by simp)] at counted
  obtain ⟨fewer, is_succ⟩ : ∃ fewer, heap.numFree order = fewer + 1 := by
    apply Nat.exists_eq_succ_of_ne_zero
    intro zero
    rw [zero] at counted
    exact absurd counted.symm (by simp)
  rw [is_succ] at counted
  refine ⟨{ heap with
    bits := update heap.bits order longs
    numFree := update heap.numFree order ((heap.numFree order + (2 ^ 32 - 1)) % 2 ^ 32) },
    by rw [BuddyHeap.markUsed, clears]; rfl, ⟨⟨rfl, rfl, rfl⟩, rfl⟩,
    marks.replace atLeast atMost sameLength (fun j => ?_) ?_ (fun j member => ?_)
      (fun o j other => ?_)⟩
  · simp only [bits, Bool.and_eq_true, Bool.not_eq_true', decide_eq_false_iff_not, true_and,
      marks.bit, and_comm]
  · -- Subtracting one in 32 bits is adding 2^32 - 1.
    rw [is_succ, show (fewer + 1 + (2 ^ 32 - 1)) % 2 ^ 32 = fewer by omega]
    exact ENat.add_left_injective_of_ne_top ENat.one_ne_top counted
  · exact (marks.inside order j member.1).2.2
  · simp only [other, false_and, not_false_iff, and_true]

end Marking

/-- The bits and counts of a heap are those of a partition without free buddies. -/
structure Shows (heap : BuddyHeap) (tiling : Tiling) : Prop extends
    Marks heap (fun order i => tiling order i = .free) where
  tiles : Tiles heap.maxOrder tiling
  merged : Merged tiling
  ordered : ∀ order i, tiling order i ≠ .absent → heap.minOrder ≤ order

theorem ne_absent_of_used (used : tiling order i = .used) : tiling order i ≠ .absent := by
  rw [used]
  exact Use.noConfusion

theorem ne_absent_of_free (free : tiling order i = .free) : tiling order i ≠ .absent := by
  rw [free]
  exact Use.noConfusion

/-- A mark leaves a heap that shows the partition with the blocks that are free behind it. -/
theorem Same.shows {after : BuddyHeap} {tiling' : Tiling} (same : Same heap after)
    (marks : Marks after vacant)
    (free : ∀ {o j}, tiling' o j = .free ↔ vacant o j) (tiles : Tiles heap.maxOrder tiling')
    (merged : Merged tiling')
    (ordered : ∀ o j, tiling' o j ≠ .absent → heap.minOrder ≤ o) : Shows after tiling' := by
  have same_free : vacant = fun o j => tiling' o j = .free := by
    funext o j
    exact propext free.symm
  refine ⟨same_free ▸ marks, same.maxOrder ▸ tiles, merged, ?_⟩
  rw [same.minOrder]
  exact ordered

section Allocation

/-- Where a block lies in the arrays. -/
theorem Shows.place (shows : Shows heap tiling) (part : tiling order i ≠ .absent) :
    heap.minOrder ≤ order ∧ order ≤ heap.maxOrder ∧ i < 2 ^ (heap.maxOrder - order) :=
  ⟨shows.ordered order i part, shows.tiles.inside order i part⟩

/-- The search stops at the first order with a free block. -/
theorem Marks.searchFree (marks : Marks heap vacant) (orders o : Nat) (atLeast : heap.minOrder ≤ o)
    (upTo : o + orders ≤ heap.maxOrder + 1) :
    (heap.searchFree orders o = some none ∧ ∀ p i, o ≤ p → p < o + orders → ¬ vacant p i)
      ∨ ∃ p seg, heap.searchFree orders o = some (some (p, seg)) ∧ o ≤ p ∧ vacant p seg := by
  -- By induction on the orders that are left to search.
  induction orders generalizing o with
  | zero => exact .inl ⟨rfl, fun p i low high => by omega⟩
  | succ orders ih =>
    unfold BuddyHeap.searchFree
    by_cases empty : heap.numFree o = 0
    · -- A count of zero means that no block of the order is free.
      rw [if_pos empty]
      have none_here : ∀ i, ¬ vacant o i := by
        intro i member
        have counted := marks.count o
        rw [empty, Nat.cast_zero, eq_comm, Set.encard_eq_zero] at counted
        exact (Set.ext_iff.mp counted i).mp member
      -- Nothing here: the search goes on one order higher.
      rcases ih (o + 1) (by omega) (by omega) with ⟨ends, none_above⟩ | ⟨p, seg, finds, low, found⟩
      · refine .inl ⟨ends, fun p i low high => ?_⟩
        rcases Nat.eq_or_lt_of_le low with rfl | above
        · exact none_here i
        · exact none_above p i above (by omega)
      · exact .inr ⟨p, seg, finds, by omega, found⟩
    · rw [if_neg empty]
      -- Some block of the order is free, so the search in its bits ends at one.
      obtain ⟨i, member⟩ : ∃ i, vacant o i := by
        by_contra none_here
        push Not at none_here
        have none_counted : {i | vacant o i} = ∅ := Set.eq_empty_iff_forall_notMem.mpr none_here
        have counted := marks.count o
        rw [none_counted, Set.encard_empty] at counted
        exact empty (by exact_mod_cast counted)
      have place := marks.inside o i member
      have few := marks.pow_le atLeast
      -- The shift count is below 32, so the loop bound is the number of blocks.
      have exponent : (heap.maxOrder - o) % 32 = heap.maxOrder - o := by
        have orders := marks.orders
        exact Nat.mod_eq_of_lt (by omega)
      obtain ⟨r, finds, first⟩ := findFirstBit_spec (heap.bits o) (2 ^ (heap.maxOrder - o)) (by
          rw [marks.length o atLeast place.2.1, bitsToLongs]
          omega)
      have below : r < 2 ^ (heap.maxOrder - o) := by
        by_contra beyond
        have zero := first.before i (Nat.zero_le _) (by omega)
        rw [(marks.bit o i).mpr member] at zero
        cases zero
      refine .inr ⟨o, r, ?_, le_refl _, (marks.bit o r).mp (first.found below)⟩
      simp only [exponent, finds, bind_eq_bind, bind_some,
        Nat.mod_eq_of_lt (show r < 2 ^ 32 by omega), if_pos below]
      rfl

/-- A block moves: what is in use afterwards is what was, with one block for another. -/
def Moves (before after : Tiling) (order i toOrder toI : Nat) : Prop :=
  ∀ o j, after o j = .used
    ↔ (o = toOrder ∧ j = toI) ∨ (before o j = .used ∧ ¬ (o = order ∧ j = i))

/-- Halving a block down to an order leaves a block of that order in use. -/
theorem Shows.splitTo (above : Nat) {seg : Nat} (shows : Shows heap tiling)
    (block : tiling (order + above) seg = .used) (atLeast : heap.minOrder ≤ order) :
    ∃ after tiling', splitTo order above seg heap = some (seg * 2 ^ above, after)
      ∧ Same heap after ∧ Shows after tiling'
      ∧ Moves tiling tiling' (order + above) seg order (seg * 2 ^ above) := by
  -- By induction on the orders to go down; each turn gives the upper half back.
  induction above generalizing heap tiling seg with
  | zero =>
    rw [Nat.pow_zero, Nat.mul_one]
    refine ⟨heap, tiling, rfl, Same.refl, shows, fun o j => ⟨fun used => ?_, ?_⟩⟩
    · by_cases here : o = order ∧ j = seg
      · exact .inl here
      · exact .inr ⟨used, here⟩
    · rintro (⟨rfl, rfl⟩ | ⟨used, -⟩)
      · exact block
      · exact used
  | succ above ih =>
    have used : tiling (order + above + 1) seg = .used := block
    have part := ne_absent_of_used used
    have below := (shows.tiles.split part).inside (order + above) (2 * seg + 1)
      (split_ne_absent.mpr (.inl ⟨rfl, by omega⟩))
    have few := shows.pow_le (show heap.minOrder ≤ order + above by omega)
    -- Neither half was a part of its own while the whole block was one.
    have upper : tiling (order + above) (2 * seg + 1) = .absent := shows.tiles.half_absent (by
      rw [show (2 * seg + 1) / 2 = seg by omega]
      exact part)
    have lowerAbsent : tiling (order + above) (2 * seg) = .absent := shows.tiles.half_absent (by
      rw [show 2 * seg / 2 = seg by omega]
      exact part)
    -- The lower half keeps the number with a zero added, the upper half is its buddy.
    have number : seg * 2 % 2 ^ 32 = 2 * seg := by omega
    obtain ⟨middle, marked, same, marks⟩ := shows.toMarks.markFree (i := 2 * seg + 1)
      (show heap.minOrder ≤ order + above by omega) below.1 below.2 (by
        rw [upper]
        exact Use.noConfusion)
    -- Splitting keeps the partition, and the free half has a used buddy.
    have middleShows : Shows middle (tiling.split (order + above) seg) := by
      refine same.shows marks (shows.tiles.split_eq_free used) (shows.tiles.split part)
        (shows.merged.split shows.tiles used) fun o j present => ?_
      rcases split_ne_absent.mp present with ⟨rfl, -⟩ | ⟨old, -⟩
      · omega
      · exact shows.ordered o j old
    have lower : tiling.split (order + above) seg (order + above) (2 * seg) = .used :=
      (split_eq_used upper).mpr (.inl ⟨rfl, rfl⟩)
    obtain ⟨after, tiling', splits, sameAfter, showsAfter, moves⟩ :=
      ih middleShows lower (same.minOrder ▸ atLeast)
    have double : 2 * seg * 2 ^ above = seg * 2 ^ (above + 1) := by
      rw [Nat.pow_succ', ← Nat.mul_assoc, Nat.mul_comm seg]
    rw [double] at splits moves
    refine ⟨after, tiling', ?_, same.trans sameAfter, showsAfter, fun o j => ?_⟩
    · unfold BuddyHeap.splitTo
      simp only [number, two_mul_xor_one, marked, bind_eq_bind, bind_some, splits]
    · -- Besides the target, the used blocks are the old ones without the split block.
      rw [moves o j, split_eq_used upper]
      constructor
      · rintro (target | ⟨⟨rfl, rfl⟩ | ⟨old, other⟩, elsewhere⟩)
        · exact .inl target
        · exact absurd ⟨rfl, rfl⟩ elsewhere
        · exact .inr ⟨old, other⟩
      · rintro (target | ⟨old, other⟩)
        · exact .inl target
        · refine .inr ⟨Or.inr ⟨old, other⟩, ?_⟩
          rintro ⟨rfl, rfl⟩
          rw [lowerAbsent] at old
          cases old

/-- The offset of a block fits its 32 bits. -/
theorem Small.offset_eq (small : Small heap) (atMost : order ≤ heap.maxOrder)
    (below : i < 2 ^ (heap.maxOrder - order)) :
    i * 2 ^ (order % 32) % 2 ^ 32 = i * 2 ^ order ∧ i * 2 ^ order < 2 ^ heap.maxOrder
      ∧ i * 2 ^ order / 2 ^ (order % 32) = i := by
  have inside : i * 2 ^ order < 2 ^ heap.maxOrder := by
    rw [show heap.maxOrder = heap.maxOrder - order + order by omega, Nat.pow_add]
    exact Nat.mul_lt_mul_of_pos_right below (Nat.two_pow_pos _)
  have max_le := small.max_le
  -- Offsets are `unsigned`, which suffices for a heap of at most 2^32 bytes.
  have fits : 2 ^ heap.maxOrder ≤ 2 ^ 32 := Nat.pow_le_pow_right (by decide) max_le
  by_cases whole : order = 32
  · -- The only block of the largest order has the number zero.
    subst whole
    have zero : i = 0 := by
      omega
    subst zero
    exact ⟨by simp, inside, by simp⟩
  · rw [Nat.mod_eq_of_lt (show order < 32 by omega), Nat.mod_eq_of_lt (by omega),
      Nat.mul_div_cancel _ (Nat.two_pow_pos _)]
    exact ⟨rfl, inside, rfl⟩

/-- A block of an order is taken out of the free blocks if a free block is large enough. -/
theorem Shows.buddyAlloc (shows : Shows heap tiling) (atLeast : heap.minOrder ≤ order)
    (atMost : order ≤ heap.maxOrder) :
    (heap.buddyAlloc order = some (none, heap) ∧ ∀ p i, order ≤ p → tiling p i ≠ .free)
      ∨ ∃ i after tiling', heap.buddyAlloc order = some (some (i * 2 ^ order), after)
        ∧ Same heap after ∧ Shows after tiling' ∧ (∃ p i, order ≤ p ∧ tiling p i = .free)
        ∧ tiling order i ≠ .used
        ∧ ∀ o j, tiling' o j = .used ↔ (o = order ∧ j = i) ∨ tiling o j = .used := by
  unfold BuddyHeap.buddyAlloc
  rcases shows.toMarks.searchFree (heap.maxOrder + 1 - order) order atLeast (by omega) with
    ⟨ends, none_free⟩ | ⟨p, seg, finds, low, found⟩
  · refine .inl ⟨by rw [ends]; rfl, fun p i low found => ?_⟩
    have place := shows.inside p i found
    exact none_free p i low (by omega) found
  -- The block found is marked as used and then halved.
  obtain ⟨above, rfl⟩ := Nat.exists_eq_add_of_le low
  obtain ⟨middle, marked, same, marks⟩ := shows.toMarks.markUsed found
  have part := ne_absent_of_free found
  -- Marking it changes the use of one part, so the partition stays.
  have middleShows : Shows middle (tiling.put (order + above) seg .used) := by
    refine same.shows marks (put_eq_other Use.noConfusion)
      (shows.tiles.put part Use.noConfusion) shows.merged.put_used fun o j present => ?_
    by_cases here : o = order + above ∧ j = seg
    · omega
    · rw [put_of_ne here] at present
      exact shows.ordered o j present
  obtain ⟨after, tiling', splits, sameAfter, showsAfter, moves⟩ :=
    middleShows.splitTo above put_self (same.minOrder ▸ atLeast)
  have place := showsAfter.place (ne_absent_of_used ((moves _ _).mpr (.inl ⟨rfl, rfl⟩)))
  obtain ⟨offset, -, -⟩ := showsAfter.toSmall.offset_eq place.2.1 place.2.2
  -- The new block starts where the block found does, which was free.
  have was_free : tiling order (seg * 2 ^ above) ≠ .used := by
    intro already
    have cell : seg * 2 ^ above * 2 ^ order / 2 ^ order = seg * 2 ^ above :=
      Nat.mul_div_cancel _ (Nat.two_pow_pos _)
    have cell' : seg * 2 ^ above * 2 ^ order / 2 ^ (order + above) = seg := by
      rw [Nat.mul_assoc, ← Nat.pow_add, Nat.add_comm above,
        Nat.mul_div_cancel _ (Nat.two_pow_pos _)]
    have none_above := shows.tiles.unique (seg * 2 ^ above * 2 ^ order) order (order + above)
      (by rw [cell]; exact ne_absent_of_used already) (by rw [cell']; exact part)
    obtain rfl : above = 0 := by omega
    rw [Nat.pow_zero, Nat.mul_one] at already
    rw [Nat.add_zero, already] at found
    cases found
  refine .inr ⟨seg * 2 ^ above, after, tiling', ?_, same.trans sameAfter, showsAfter,
    ⟨_, _, low, found⟩, was_free, fun o j => ?_⟩
  · simp only [finds, bind_eq_bind, bind_some, marked,
      show order + above - order = above by omega, splits, offset]
    rfl
  · -- The block found was free, so no used block is lost by its place.
    rw [moves o j, put_eq_self]
    constructor
    · rintro (target | ⟨here | old, other⟩)
      · exact .inl target
      · exact absurd here other
      · exact .inr old
    · rintro (target | old)
      · exact .inl target
      · refine .inr ⟨Or.inr old, ?_⟩
        rintro ⟨rfl, rfl⟩
        rw [found] at old
        cases old

end Allocation

section Freeing

/-- Joining a block in use with its free buddies ends with a free block. -/
theorem Shows.mergeUp (orders : Nat) (shows : Shows heap tiling) (block : tiling order i = .used)
    (enough : heap.maxOrder < order + orders) :
    ∃ after tiling', mergeUp orders order i heap = some after ∧ Same heap after
      ∧ Shows after tiling'
      ∧ ∀ o j, tiling' o j = .used ↔ tiling o j = .used ∧ ¬ (o = order ∧ j = i) := by
  have part := ne_absent_of_used block
  have place := shows.place part
  -- By induction on the orders above; every turn joins two buddies or stops.
  induction orders generalizing heap tiling order i with
  | zero => omega
  | succ orders ih =>
    have few := shows.pow_le place.1
    -- The buddy's bit lies in the same long, even where there is no buddy.
    have half := @xor_one_div_two i
    have tested :
        testBit (i ^^^ 1) (heap.bits order) = some (bitAt (heap.bits order) (i ^^^ 1)) := by
      have long := shows.long_lt place.1 place.2.1 place.2.2
      apply testBit_spec
      · omega
      · rcases Nat.lt_or_ge order heap.maxOrder with below | top
        · omega
        · omega
    unfold BuddyHeap.mergeUp
    simp only [tested, bind_eq_bind]
    cases buddy : bitAt (heap.bits order) (i ^^^ 1) with
    | true =>
      -- The buddy is free: the two become one used block, and the loop goes on with it.
      rw [shows.bit] at buddy
      obtain ⟨middle, marked, same, marks⟩ := shows.toMarks.markUsed buddy
      have middleShows : Shows middle (tiling.merge order i) := by
        refine same.shows marks (shows.tiles.merge_eq_free block)
          (shows.tiles.merge part (ne_absent_of_free buddy))
          (shows.merged.merge shows.tiles block) fun o j present => ?_
        rcases merge_ne_absent.mp present with ⟨rfl, -⟩ | ⟨old, -⟩
        · omega
        · exact shows.ordered o j old
      have joined : tiling.merge order i (order + 1) (i / 2) = .used :=
        (merge_eq_used buddy).mpr (.inl ⟨rfl, rfl⟩)
      have joinedPart := ne_absent_of_used joined
      obtain ⟨after, tiling', merges, sameAfter, showsAfter, used⟩ :=
        ih middleShows joined (by rw [same.maxOrder]; omega) joinedPart
          (middleShows.place joinedPart)
      refine ⟨after, tiling', ?_, same.trans sameAfter, showsAfter, fun o j => ?_⟩
      · simp only [if_pos, marked, bind_some, merges]
      · -- The joined block was no part before.
        rw [used, merge_eq_used buddy]
        have absent := shows.tiles.joined_absent part
        constructor
        · rintro ⟨here | old, other⟩
          · exact absurd here other
          · exact old
        · rintro ⟨old, other⟩
          refine ⟨Or.inr ⟨old, other⟩, ?_⟩
          rintro ⟨rfl, rfl⟩
          rw [absent] at old
          cases old
    | false =>
      -- The buddy is not free: the block is given back as it is, and no two buddies are free.
      have notFree : tiling order (i ^^^ 1) ≠ .free := by
        intro isFree
        rw [← shows.bit, buddy] at isFree
        cases isFree
      obtain ⟨after, marked, same, marks⟩ := shows.toMarks.markFree place.1 place.2.1 place.2.2
        (by rw [block]; exact Use.noConfusion)
      refine ⟨after, tiling.put order i .free, by simpa using marked, same, ?_,
        fun o j => put_eq_other Use.noConfusion⟩
      refine same.shows marks put_eq_self (shows.tiles.put part Use.noConfusion)
        (shows.merged.put_free notFree) fun o j present => ?_
      by_cases here : o = order ∧ j = i
      · omega
      · rw [put_of_ne here] at present
        exact shows.ordered o j present

/-- A block in use becomes free at its offset. -/
theorem Shows.buddyFree (shows : Shows heap tiling) (block : tiling order i = .used) :
    ∃ after tiling', heap.buddyFree (i * 2 ^ order) order = some after ∧ Same heap after
      ∧ Shows after tiling'
      ∧ ∀ o j, tiling' o j = .used ↔ tiling o j = .used ∧ ¬ (o = order ∧ j = i) := by
  have place := shows.place (ne_absent_of_used block)
  obtain ⟨-, -, number⟩ := shows.toSmall.offset_eq place.2.1 place.2.2
  unfold BuddyHeap.buddyFree
  rw [number]
  exact shows.mergeUp _ block (by omega)

end Freeing

/-- The address of a block. -/
def addrOf (heap : BuddyHeap) (order i : Nat) : UInt64 :=
  heap.symmetricHeap + UInt64.ofNat (i * 2 ^ order)

theorem Frame.addrOf {after : BuddyHeap} (frame : Frame heap after) (order i : Nat) :
    after.addrOf order i = heap.addrOf order i := by
  rw [BuddyHeap.addrOf, BuddyHeap.addrOf, frame.symmetricHeap]

/-- The orders of the blocks in use are saved under their addresses. -/
structure Saves (heap : BuddyHeap) (tiling : Tiling) (live : UInt64 → Option Nat) : Prop extends
    Shows heap tiling where
  rep : heap.symmetricHeapHashtable.Represents UInt64.toNat live
  standard : heap.symmetricHeapHashtable.Standard
  saved : ∀ addr order, live addr = some order
    ↔ ∃ i, tiling order i = .used ∧ addr = heap.addrOf order i

section Calls

variable {live : UInt64 → Option Nat}

section

variable (shows : Shows heap tiling) (part : tiling order i ≠ .absent)

include shows part

theorem Shows.lt_of_part : i * 2 ^ order < 2 ^ heap.maxOrder ∧ i * 2 ^ order < 2 ^ 32 := by
  have place := shows.place part
  obtain ⟨-, inside, -⟩ := shows.toSmall.offset_eq place.2.1 place.2.2
  have fits : 2 ^ heap.maxOrder ≤ 2 ^ 32 := Nat.pow_le_pow_right (by decide) shows.max_le
  exact ⟨inside, by omega⟩

/-- A block's offset is the distance of its address from the heap. -/
theorem Shows.sub_addrOf : (heap.addrOf order i - heap.symmetricHeap).toNat = i * 2 ^ order := by
  have small := (shows.lt_of_part part).2
  rw [addrOf, UInt64.add_comm, UInt64.add_sub_cancel, UInt64.toNat_ofNat',
    Nat.mod_eq_of_lt (by omega)]

/-- Parts at one address are the same part. -/
theorem Shows.addrOf_inj {p j : Nat} (other : tiling p j ≠ .absent)
    (same : heap.addrOf order i = heap.addrOf p j) : order = p ∧ i = j := by
  have cell : i * 2 ^ order = j * 2 ^ p := by
    rw [← shows.sub_addrOf part, ← shows.sub_addrOf other, same]
  -- Both contain the cell at their offset.
  have here : i * 2 ^ order / 2 ^ order = i := Nat.mul_div_cancel _ (Nat.two_pow_pos _)
  have there : i * 2 ^ order / 2 ^ p = j := by
    rw [cell, Nat.mul_div_cancel _ (Nat.two_pow_pos _)]
  have orders := shows.tiles.unique (i * 2 ^ order) order p (by rw [here]; exact part)
    (by rw [there]; exact other)
  subst orders
  exact ⟨rfl, here.symm.trans there⟩

end

/-- The table of orders has no part in the partition. -/
theorem Shows.withTable (shows : Shows heap tiling) {ht : HashTable UInt64 Nat} :
    Shows { heap with symmetricHeapHashtable := ht } tiling :=
  { shows with toSmall := { shows with } }

/-- There are at most 2^32 blocks in use. -/
theorem Saves.size_le (saves : Saves heap tiling live) :
    heap.symmetricHeapHashtable.size ≤ 2 ^ 32 := by
  have block_of : ∀ addr, live addr ≠ none → ∃ order i, tiling order i = .used
      ∧ addr = heap.addrOf order i := by
    intro addr present
    obtain ⟨order, found⟩ := ne_none_iff_exists'.mp present
    obtain ⟨i, block⟩ := (saves.saved addr order).mp found
    exact ⟨order, i, block⟩
  refine saves.rep.size_le (fun addr => (addr - heap.symmetricHeap).toNat) _
    (fun a b _ _ same => ?_) fun addr present => ?_
  · have equal := UInt64.toNat_inj.mp same
    rwa [UInt64.sub_left_inj] at equal
  · obtain ⟨order, i, used, rfl⟩ := block_of addr present
    rw [saves.sub_addrOf (ne_absent_of_used used)]
    exact (saves.lt_of_part (ne_absent_of_used used)).2

/-- An allocation succeeds if a free block is large enough, and changes nothing if not. -/
theorem Saves.doAlloc (saves : Saves heap tiling live) (order : Nat) :
    (heap.doAlloc order = some ((.error, some 0), heap)
        ∧ ∀ p i, max heap.minOrder order ≤ p → tiling p i ≠ .free)
      ∨ ∃ i after tiling',
        heap.doAlloc order
            = some ((.success, some (heap.addrOf (max heap.minOrder order) i)), after)
        ∧ Frame heap after
        ∧ Saves after tiling' (update live (heap.addrOf (max heap.minOrder order) i)
          (some (max heap.minOrder order)))
        ∧ (∃ p i, max heap.minOrder order ≤ p ∧ tiling p i = .free)
        ∧ live (heap.addrOf (max heap.minOrder order) i) = none := by
  have clamped : (if order < heap.minOrder then heap.minOrder else order)
      = max heap.minOrder order := by
    split <;> omega
  have atLeast : heap.minOrder ≤ max heap.minOrder order := le_max_left _ _
  unfold BuddyHeap.doAlloc
  simp only [clamped]
  generalize max heap.minOrder order = order at *
  by_cases large : heap.maxOrder < order
  · refine .inl ⟨if_pos large, fun p i low found => ?_⟩
    have place := saves.inside p i found
    omega
  rw [if_neg large]
  rcases saves.toShows.buddyAlloc atLeast (by omega) with ⟨fails, none_free⟩ |
    ⟨i, middle, tiling', takes, same, shows, room, unused, used⟩
  · refine .inl ⟨?_, none_free⟩
    rw [fails]
    rfl
  have block : tiling' order i = .used := (used order i).mpr (.inl ⟨rfl, rfl⟩)
  have address := same.addrOf order i
  -- The address was not in use: the block would have been.
  have fresh : live (heap.addrOf order i) = none := by
    by_contra present
    obtain ⟨p, found⟩ := ne_none_iff_exists'.mp present
    obtain ⟨j, usedBefore, equal⟩ := (saves.saved _ p).mp found
    have usedNow : tiling' p j = .used := (used p j).mpr (.inr usedBefore)
    obtain ⟨rfl, rfl⟩ := shows.addrOf_inj (ne_absent_of_used block)
      (ne_absent_of_used usedNow) (by rw [address, equal, same.addrOf])
    exact unused usedBefore
  -- The table never comes near the size at which its growth would wrap.
  have few : middle.symmetricHeapHashtable.size ≤ 2 ^ 40 := by
    have size := saves.size_le
    rw [same.hashtable]
    omega
  have rep := saves.rep
  have standard := saves.standard
  rw [← same.hashtable] at rep standard
  obtain ⟨ht, sets, repAfter, follows⟩ := rep.setValue (heap.addrOf order i) order
    fun _ reached => standard.growable rep.toInv few reached
  refine .inr ⟨i, { middle with symmetricHeapHashtable := ht }, tiling', ?_,
    { same with }, ?_, room, fresh⟩
  · simp only [takes, bind_eq_bind, bind_some]
    rw [show middle.symmetricHeap + UInt64.ofNat (i * 2 ^ order) = heap.addrOf order i from address]
    simp only [sets]
    rfl
  · refine ⟨shows.withTable, repAfter, standard.follows follows, fun addr p => ?_⟩
    have base : ∀ p j, addrOf { middle with symmetricHeapHashtable := ht } p j
        = heap.addrOf p j := same.addrOf
    simp only [base, used]
    -- One address is new in the table, and one block is new among the used ones.
    by_cases here : addr = heap.addrOf order i
    · subst here
      rw [update_self, some.injEq]
      constructor
      · rintro rfl
        exact ⟨i, .inl ⟨rfl, rfl⟩, rfl⟩
      · rintro ⟨j, ⟨rfl, -⟩ | usedBefore, equal⟩
        · rfl
        · have found := (saves.saved _ p).mpr ⟨j, usedBefore, equal⟩
          rw [fresh] at found
          cases found
    · rw [update_of_ne here, saves.saved]
      constructor
      · rintro ⟨j, usedBefore, equal⟩
        exact ⟨j, .inr usedBefore, equal⟩
      · rintro ⟨j, ⟨rfl, rfl⟩ | usedBefore, equal⟩
        · exact absurd equal here
        · exact ⟨j, usedBefore, equal⟩

/-- Freeing a block in use takes it out of the table; other addresses are refused. -/
theorem Saves.free (saves : Saves heap tiling live) (ptr : UInt64) :
    ∃ after tiling',
      heap.free ptr = some (if (live ptr).isSome then .success else .error, after)
        ∧ Frame heap after ∧ Saves after tiling' (update live ptr none) := by
  unfold BuddyHeap.free
  rw [saves.rep.getValue]
  -- What is not in the table is refused and changes nothing.
  cases found : live ptr with
  | none =>
    refine ⟨heap, tiling, rfl, Frame.refl, ?_⟩
    rw [← found, update_eq_self]
    exact saves
  | some order =>
    obtain ⟨i, used, rfl⟩ := (saves.saved ptr order).mp found
    have part := ne_absent_of_used used
    have place := saves.place part
    have max_le := saves.max_le
    obtain ⟨-, small⟩ := saves.lt_of_part part
    obtain ⟨middle, tiling', frees, same, shows, usedAfter⟩ := saves.toShows.buddyFree used
    have rep := saves.rep
    have standard := saves.standard
    rw [← same.hashtable] at rep standard
    obtain ⟨rc, ht, removes, repAfter, follows, -⟩ := rep.removeValue (heap.addrOf order i)
    refine ⟨{ middle with symmetricHeapHashtable := ht }, tiling', ?_,
      { same with }, shows.withTable, repAfter,
      standard.follows follows, fun addr p => ?_⟩
    · simp only [bind_eq_bind, bind_some, saves.sub_addrOf part,
        Nat.mod_eq_of_lt small, Nat.mod_eq_of_lt (show order < 2 ^ 32 by omega), frees, removes]
      rfl
    · have base : ∀ p j, addrOf { middle with symmetricHeapHashtable := ht } p j
          = heap.addrOf p j := same.addrOf
      simp only [base, usedAfter]
      by_cases here : addr = heap.addrOf order i
      · -- No other block has the address.
        subst here
        rw [update_self]
        refine ⟨nofun, ?_⟩
        rintro ⟨j, ⟨usedBefore, other⟩, equal⟩
        obtain ⟨rfl, rfl⟩ := saves.addrOf_inj part (ne_absent_of_used usedBefore) equal
        exact absurd ⟨rfl, rfl⟩ other
      · rw [update_of_ne here, saves.saved]
        -- All other entries stand for the same blocks as before.
        constructor
        · rintro ⟨j, usedBefore, equal⟩
          refine ⟨j, ⟨usedBefore, ?_⟩, equal⟩
          rintro ⟨rfl, rfl⟩
          exact here equal
        · rintro ⟨j, ⟨usedBefore, -⟩, equal⟩
          exact ⟨j, usedBefore, equal⟩

/-- Some partition and some orders of blocks belong to the heap. -/
def Inv (heap : BuddyHeap) : Prop := ∃ tiling live, Saves heap tiling live

/-- A call returns, and keeps the heap in order. -/
def Keeps {R : Type} (heap : BuddyHeap) (call : Option (R × BuddyHeap)) : Prop :=
  ∃ result after, call = some (result, after) ∧ Frame heap after ∧ Inv after

theorem Inv.doAlloc (inv : Inv heap) (order : Nat) : Keeps heap (heap.doAlloc order) := by
  obtain ⟨tiling, live, saves⟩ := inv
  rcases saves.doAlloc order with ⟨fails, -⟩ |
    ⟨i, after, tiling', succeeds, frame, savesAfter, -, -⟩
  · exact ⟨_, heap, fails, Frame.refl, tiling, live, saves⟩
  · exact ⟨_, after, succeeds, frame, tiling', _, savesAfter⟩

theorem Inv.free (inv : Inv heap) (ptr : UInt64) : Keeps heap (heap.free ptr) := by
  obtain ⟨tiling, live, saves⟩ := inv
  obtain ⟨after, tiling', frees, frame, savesAfter⟩ := saves.free ptr
  exact ⟨_, after, frees, frame, tiling', _, savesAfter⟩

theorem Inv.align (inv : Inv heap) (align size : UInt64) : Keeps heap (heap.align align size) := by
  unfold BuddyHeap.align
  split
  · exact ⟨_, heap, rfl, Frame.refl, inv⟩
  · split
    · exact ⟨_, heap, rfl, Frame.refl, inv⟩
    · exact inv.doAlloc _

theorem Inv.moveTo (inv : Inv heap) (newSize ptr : UInt64) (viaTmp : Bool) :
    Keeps heap (heap.moveTo newSize ptr viaTmp) := by
  obtain ⟨⟨rc, buff⟩, middle, allocates, frame, kept⟩ := inv.doAlloc (findOrder newSize.toNat)
  unfold BuddyHeap.moveTo BuddyHeap.alloc
  rw [allocates]
  cases rc with
  -- The old block is freed after the move, unless its content went through a buffer.
  | success =>
    cases viaTmp with
    | true => exact ⟨_, middle, rfl, frame, kept⟩
    | false =>
      obtain ⟨result, after, frees, frameAfter, keptAfter⟩ := kept.free ptr
      refine ⟨(.success, buff), after, ?_, frame.trans frameAfter, keptAfter⟩
      simp only [bind_eq_bind, bind_some, frees]
      rfl
  | error | errBadParam | errOutOfResource => exact ⟨_, middle, rfl, frame, kept⟩

theorem Inv.realloc (inv : Inv heap) (newSize ptr : UInt64) (tmpAllocated : Bool) :
    Keeps heap (heap.realloc newSize ptr tmpAllocated) := by
  have looks : ∃ rc found, heap.symmetricHeapHashtable.getValue UInt64.toNat ptr
      = some (rc, found) := by
    obtain ⟨tiling, live, saves⟩ := inv
    exact ⟨_, _, saves.rep.getValue ptr⟩
  obtain ⟨rc, found, looks⟩ := looks
  obtain ⟨rcFree, freed, frees, frameFree, keptFree⟩ := inv.free ptr
  unfold BuddyHeap.realloc
  simp only [looks, frees, bind_eq_bind, bind_some]
  split
  · exact inv.doAlloc _
  cases found with
  | none => exact ⟨_, heap, rfl, Frame.refl, inv⟩
  | some order =>
    simp only
    -- The branches end as the calls they consist of do.
    split
    · exact ⟨_, freed, rfl, frameFree, keptFree⟩
    split
    · exact ⟨_, heap, rfl, Frame.refl, inv⟩
    split
    · exact ⟨_, heap, rfl, Frame.refl, inv⟩
    split
    · exact inv.moveTo newSize ptr false
    · split
      · obtain ⟨result, after, moves, frame, kept⟩ := keptFree.moveTo newSize ptr true
        exact ⟨result, after, moves, frameFree.trans frame, kept⟩
      · exact ⟨_, heap, rfl, Frame.refl, inv⟩

theorem Keeps.snd {R : Type} {call : Option (R × BuddyHeap)} (keeps : Keeps heap call) :
    ∃ after, call.map Prod.snd = some after ∧ Frame heap after ∧ Inv after := by
  obtain ⟨result, after, returns, kept⟩ := keeps
  exact ⟨after, congrArg (Option.map Prod.snd) returns, kept⟩

/-- Every call returns and keeps the heap in order. -/
theorem Inv.step (inv : Inv heap) (action : BuddyAction) :
    ∃ after, heap.step action = some after ∧ Frame heap after ∧ Inv after := by
  cases action with
  | alloc size => exact (inv.doAlloc (findOrder size.toNat)).snd
  | align align size => exact (inv.align align size).snd
  | free ptr => exact (inv.free ptr).snd
  | realloc newSize ptr tmpAllocated => exact (inv.realloc newSize ptr tmpAllocated).snd

end Calls

end EduMpi.Shmem.BuddyHeap
