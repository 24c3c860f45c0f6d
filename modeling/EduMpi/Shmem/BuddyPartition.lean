import EduMpi.Shmem.BuddyLaws
import Mathlib.Data.UInt

/-! What a user of the buddy heap can rely on after any calls. -/

namespace EduMpi.Shmem.BuddyHeap

open Buddy Opal Words
open Function (update update_of_ne update_self)
open Nat (clog two_pow_pos)

/-- A block of memory by its distance from the start of the heap. -/
structure Block where
  start : Nat
  order : Nat

def Block.Contains (block : Block) (cell : Nat) : Prop :=
  block.start ≤ cell ∧ cell < block.start + 2 ^ block.order

/-- The order saved for an address. -/
def recorded (heap : BuddyHeap) (addr : UInt64) : Option Nat :=
  (heap.symmetricHeapHashtable.getValue UInt64.toNat addr).bind Prod.snd

/-- A block whose bit is set. -/
def FreeBlock (heap : BuddyHeap) (block : Block) : Prop :=
  ∃ i, block.start = i * 2 ^ block.order ∧ bitAt (heap.bits block.order) i = true

/-- A block whose order is saved for its address. -/
def LiveBlock (heap : BuddyHeap) (block : Block) : Prop :=
  ∃ addr, heap.recorded addr = some block.order ∧ (addr - heap.symmetricHeap).toNat = block.start

/-- The free blocks and the live blocks partition the heap. -/
structure Partitions (heap : BuddyHeap) : Prop where
  inside : ∀ block, heap.FreeBlock block ∨ heap.LiveBlock block →
    block.start + 2 ^ block.order ≤ 2 ^ heap.maxOrder
  apart : ∀ block, ¬ (heap.FreeBlock block ∧ heap.LiveBlock block)
  covers : ∀ cell < 2 ^ heap.maxOrder,
    ∃! block, (heap.FreeBlock block ∨ heap.LiveBlock block) ∧ block.Contains cell

/-- A call returns a block of an order that was not live before. -/
def Allocates (heap : BuddyHeap) (order : Nat) (call : Option (Result × BuddyHeap)) : Prop :=
  ∃ addr after, call = some ((.success, some addr), after) ∧ heap.recorded addr = none
    ∧ after.recorded = update heap.recorded addr (some order)

/-- A call moves a live block to one of an order. If it fails, the old block stays, or it is lost with
the temporary copy. -/
def Relocates (heap : BuddyHeap) (ptr : UInt64) (order : Nat) (call : Option (Result × BuddyHeap)) :
    Prop :=
  ∃ rc buff after, call = some ((rc, buff), after) ∧
    if rc = .success then
      ∃ addr, buff = some addr ∧ after.recorded = update (update heap.recorded ptr none) addr (some order)
    else after.recorded = heap.recorded ∨ after.recorded = update heap.recorded ptr none

/-- What holds of a heap after any calls. -/
structure Sound (initial heap : BuddyHeap) : Prop where
  partitions : heap.Partitions
  counts : ∀ order, (heap.numFree order : ℕ∞) = {i | bitAt (heap.bits order) i = true}.encard
  buddies : ∀ order i,
    ¬ (bitAt (heap.bits order) i = true ∧ bitAt (heap.bits order) (i ^^^ 1) = true)
  /-- An allocation succeeds if some free block is large enough. -/
  allocates : ∀ (size : UInt64) (p i : Nat), max heap.minOrder (clog 2 size.toNat) ≤ p →
    bitAt (heap.bits p) i = true →
    heap.Allocates (max heap.minOrder (clog 2 size.toNat)) (heap.alloc size)
  aligns : ∀ (align size : UInt64) (k p i : Nat), align.toNat = 2 ^ k → size.toNat ≤ 2 ^ 63 →
    max heap.minOrder (max (clog 2 size.toNat) k) ≤ p → bitAt (heap.bits p) i = true →
    heap.Allocates (max heap.minOrder (max (clog 2 size.toNat) k)) (heap.align align size)
  /-- A live block is freed, and only it; other addresses are refused. -/
  frees : ∀ addr, ∃ after,
    heap.free addr = some (if (heap.recorded addr).isSome then .success else .error, after)
      ∧ after.recorded = update heap.recorded addr none
  /-- A live block is freed, stays where it is, or moves to one of the new size. -/
  reallocs : ∀ newSize ptr tmpAllocated order, ptr ≠ 0 → heap.recorded ptr = some order →
    if newSize = 0 then ∃ after,
      heap.realloc newSize ptr tmpAllocated = some ((.success, some 0), after)
        ∧ after.recorded = update heap.recorded ptr none
    else if newSize.toNat ≤ 2 ^ order then
      heap.realloc newSize ptr tmpAllocated = some ((.success, some ptr), heap)
    else heap.Relocates ptr (max heap.minOrder (clog 2 newSize.toNat))
      (heap.realloc newSize ptr tmpAllocated)
  /-- Without live blocks the heap is as it was at first. -/
  restores : (∀ addr, heap.recorded addr = none) →
    heap.bits = initial.bits ∧ heap.numFree = initial.numFree

variable {heap : BuddyHeap} {tiling : Tiling} {live : UInt64 → Option Nat} {order i : Nat}

section Meaning

section Saves

variable (saves : Saves heap tiling live)

include saves

theorem Saves.recorded_eq : heap.recorded = live := by
  funext addr
  rw [recorded, saves.rep.getValue]
  cases live addr <;> rfl

theorem Saves.freeBlock_iff (block : Block) :
    heap.FreeBlock block
      ↔ ∃ i, block.start = i * 2 ^ block.order ∧ tiling block.order i = .free := by
  simp only [FreeBlock, saves.bit]

theorem Saves.liveBlock_iff (block : Block) :
    heap.LiveBlock block
      ↔ ∃ i, block.start = i * 2 ^ block.order ∧ tiling block.order i = .used := by
  simp only [LiveBlock, saves.recorded_eq, saves.saved]
  constructor
  · rintro ⟨addr, ⟨i, used, rfl⟩, starts⟩
    rw [saves.sub_addrOf (ne_absent_of_used used)] at starts
    exact ⟨i, starts.symm, used⟩
  · rintro ⟨i, starts, used⟩
    exact ⟨heap.addrOf block.order i, ⟨i, used, rfl⟩,
      (saves.sub_addrOf (ne_absent_of_used used)).trans starts.symm⟩

/-- The blocks of the heap are the parts of its partition. -/
theorem Saves.block_iff (block : Block) :
    (heap.FreeBlock block ∨ heap.LiveBlock block)
      ↔ ∃ i, block.start = i * 2 ^ block.order ∧ tiling block.order i ≠ .absent := by
  rw [saves.freeBlock_iff, saves.liveBlock_iff, ← exists_or]
  refine exists_congr fun i => ?_
  cases tiling block.order i <;> simp

end Saves

/-- A block of an order contains the cells with its number at that order. -/
theorem contains_iff {i cell : Nat} :
    Block.Contains ⟨i * 2 ^ order, order⟩ cell ↔ cell / 2 ^ order = i := by
  have positive := two_pow_pos order
  simp only [Block.Contains, Nat.div_eq_iff (two_pow_pos _)]
  omega

theorem Saves.partitions (saves : Saves heap tiling live) : heap.Partitions where
  inside block member := by
    obtain ⟨i, starts, part⟩ := (saves.block_iff block).mp member
    have place := saves.place part
    rw [starts, ← Nat.succ_mul]
    -- A block of an order ends within the cells that the largest block covers.
    calc (i + 1) * 2 ^ block.order
        ≤ 2 ^ (heap.maxOrder - block.order) * 2 ^ block.order := Nat.mul_le_mul_right _ place.2.2
      _ = 2 ^ heap.maxOrder := by rw [← Nat.pow_add, Nat.sub_add_cancel place.2.1]
  apart block := by
    rw [saves.freeBlock_iff, saves.liveBlock_iff]
    -- One block has one use.
    rintro ⟨⟨i, starts, isFree⟩, j, startsToo, used⟩
    have same : i = j :=
      Nat.eq_of_mul_eq_mul_right (two_pow_pos _) (starts.symm.trans startsToo)
    rw [same, used] at isFree
    cases isFree
  covers cell below := by
    obtain ⟨order, part⟩ := saves.tiles.covers cell below
    refine ⟨⟨cell / 2 ^ order * 2 ^ order, order⟩,
      ⟨(saves.block_iff _).mpr ⟨_, rfl, part⟩, contains_iff.mpr rfl⟩, ?_⟩
    -- Any other block with the cell is of the same order, and so the same.
    rintro ⟨start, p⟩ ⟨member, contains⟩
    obtain ⟨j, starts, other⟩ := (saves.block_iff _).mp member
    dsimp only at starts other
    subst starts
    rw [contains_iff] at contains
    subst contains
    obtain rfl := saves.tiles.unique cell order p part other
    rfl

end Meaning

section Orders

theorem findOrder_toNat (size : UInt64) : findOrder size.toNat = clog 2 size.toNat :=
  findOrder_eq size.toNat_lt

theorem ne_zero_of_power {align : UInt64} {k : Nat} (power : align.toNat = 2 ^ k) : align ≠ 0 := by
  rintro rfl
  exact absurd power.symm (two_pow_pos k).ne'

/-- The powers of two pass the test of an alignment. -/
theorem and_sub_one_eq_zero_iff {align : UInt64} (nonzero : align ≠ 0) :
    align &&& (align - 1) = 0 ↔ ∃ k, align.toNat = 2 ^ k := by
  have positive : 0 < align.toNat :=
    Nat.pos_of_ne_zero fun zero => nonzero (UInt64.toNat_inj.mp zero)
  rw [← UInt64.toNat_inj, UInt64.toNat_and,
    UInt64.toNat_sub_of_le _ _ (by rw [UInt64.le_iff_toNat_le]; exact positive),
    UInt64.toNat_one]
  exact Nat.and_sub_one_eq_zero_iff_isPowerOfTwo (by omega)

/-- The order of a size at an alignment of a power of two. -/
theorem alignOrder_of_power {align size : UInt64} {k : Nat} (power : align.toNat = 2 ^ k) :
    alignOrder align size = if clog 2 size.toNat % 64 < k then k else clog 2 size.toNat := by
  have order : findOrder (2 ^ k) = k := by
    rw [← power, findOrder_toNat, power, Nat.clog_pow _ _ (by decide)]
  simp only [alignOrder, order, findOrder_toNat, power, Nat.pow_lt_pow_iff_right one_lt_two]

/-- An aligned block is at least as large as its alignment. -/
theorem le_alignOrder {align size : UInt64} {k : Nat} (power : align.toNat = 2 ^ k) :
    k ≤ alignOrder align size := by
  rw [alignOrder_of_power power]
  split
  · exact le_refl _
  · -- A shift by 64 is a shift by none, which is no larger.
    omega

theorem alignOrder_eq {align size : UInt64} {k : Nat} (power : align.toNat = 2 ^ k)
    (fits : size.toNat ≤ 2 ^ 63) : alignOrder align size = max (clog 2 size.toNat) k := by
  have order : clog 2 size.toNat ≤ 63 := (Nat.clog_le_iff_le_pow (by decide)).mpr fits
  rw [alignOrder_of_power power]
  split <;> omega

end Orders

section Runs

/-- An allocation with a large enough free block returns a block of its order. -/
theorem Saves.allocates (saves : Saves heap tiling live) {order p i : Nat}
    (low : max heap.minOrder order ≤ p) (bit : bitAt (heap.bits p) i = true) :
    heap.Allocates (max heap.minOrder order) (heap.doAlloc order) := by
  rcases saves.doAlloc order with ⟨-, none_free⟩ |
    ⟨j, after, tiling', succeeds, -, savesAfter, -, fresh⟩
  · -- The search would have found the free block.
    exact absurd ((saves.bit p i).mp bit) (none_free p i low)
  · refine ⟨_, after, succeeds, ?_, ?_⟩
    · rw [saves.recorded_eq]
      exact fresh
    · rw [savesAfter.recorded_eq, saves.recorded_eq]

theorem Saves.frees (saves : Saves heap tiling live) (addr : UInt64) : ∃ after,
    heap.free addr = some (if (heap.recorded addr).isSome then .success else .error, after)
      ∧ after.recorded = update heap.recorded addr none ∧ Frame heap after
      ∧ ∃ tiling', Saves after tiling' after.recorded := by
  obtain ⟨after, tiling', freed, frame, savesAfter⟩ := saves.free addr
  rw [saves.recorded_eq]
  refine ⟨after, freed, savesAfter.recorded_eq, frame, tiling', ?_⟩
  rwa [savesAfter.recorded_eq]

/-- The second half of a reallocation: without a temporary copy the old block is freed at the end. -/
theorem Saves.moveTo (saves : Saves heap tiling live) (newSize ptr : UInt64) (viaTmp : Bool) :
    ∃ rc buff after, heap.moveTo newSize ptr viaTmp = some ((rc, buff), after) ∧
      if rc = .success then ∃ addr, buff = some addr ∧ heap.recorded addr = none ∧
        let moved := update heap.recorded addr (some (max heap.minOrder (clog 2 newSize.toNat)))
        after.recorded = if viaTmp then moved else update moved ptr none
      else after = heap := by
  unfold BuddyHeap.moveTo BuddyHeap.alloc
  rw [findOrder_toNat]
  -- The new block is recorded first; without a buffer the old one is taken out after it.
  rcases saves.doAlloc (clog 2 newSize.toNat) with ⟨fails, -⟩ |
    ⟨i, middle, tiling', succeeds, -, savesMiddle, -, fresh⟩
  · rw [fails]
    exact ⟨_, _, heap, rfl, rfl⟩
  rw [succeeds]
  rw [← saves.recorded_eq] at fresh savesMiddle
  cases viaTmp with
  | true => exact ⟨.success, _, middle, rfl, _, rfl, fresh, savesMiddle.recorded_eq⟩
  | false =>
    obtain ⟨after, freed, recorded, -⟩ := savesMiddle.frees ptr
    refine ⟨.success, _, after, ?_, _, rfl, fresh, ?_⟩
    · simp only [Option.bind_eq_bind, Option.bind_some, freed]
      rfl
    · rw [recorded, savesMiddle.recorded_eq]
      rfl

theorem Saves.reallocs (saves : Saves heap tiling live) (newSize : UInt64) {ptr : UInt64}
    (tmpAllocated : Bool) (nonzero : ptr ≠ 0) (found : heap.recorded ptr = some order) :
    if newSize = 0 then ∃ after,
      heap.realloc newSize ptr tmpAllocated = some ((.success, some 0), after)
        ∧ after.recorded = update heap.recorded ptr none
    else if newSize.toNat ≤ 2 ^ order then
      heap.realloc newSize ptr tmpAllocated = some ((.success, some ptr), heap)
    else heap.Relocates ptr (max heap.minOrder (clog 2 newSize.toNat))
      (heap.realloc newSize ptr tmpAllocated) := by
  obtain ⟨freed, frees, gone, frame, tiling', savesFreed⟩ := saves.frees ptr
  have isLive : live ptr = some order := saves.recorded_eq ▸ found
  -- The order of a block is far below the width of a word.
  have small : order % 64 = order := by
    obtain ⟨i, used, -⟩ := (saves.saved ptr order).mp isLive
    have place := saves.place (ne_absent_of_used used)
    have := saves.max_le
    omega
  rw [found] at frees
  unfold BuddyHeap.realloc
  simp only [if_neg nonzero, saves.rep.getValue, isLive, frees, Option.bind_eq_bind,
    Option.bind_some, Option.isSome_some, if_true, small]
  -- The branches of the call in their order: nothing asked for, enough room, too large, and moves.
  split
  · exact ⟨freed, rfl, gone⟩
  split
  · rfl
  split
  · exact ⟨_, _, heap, rfl, .inl rfl⟩
  split
  · -- The new block is taken while the old one is there, so that it is another one.
    obtain ⟨rc, buff, after, moves, result⟩ := saves.moveTo newSize ptr false
    refine ⟨rc, buff, after, moves, ?_⟩
    by_cases ok : rc = .success
    · rw [if_pos ok] at result ⊢
      obtain ⟨addr, returned, fresh, recorded⟩ := result
      have other : addr ≠ ptr := by
        rintro rfl
        rw [found] at fresh
        cases fresh
      refine ⟨addr, returned, recorded.trans ?_⟩
      exact Function.update_comm other ..
    · rw [if_neg ok] at result ⊢
      exact .inl (by rw [result])
  · -- The old block is freed first, so that the new one may be the same.
    split
    · obtain ⟨rc, buff, after, moves, result⟩ := savesFreed.moveTo newSize ptr true
      refine ⟨rc, buff, after, moves, ?_⟩
      by_cases ok : rc = .success
      · rw [if_pos ok] at result ⊢
        obtain ⟨addr, returned, -, recorded⟩ := result
        refine ⟨addr, returned, ?_⟩
        rw [recorded, gone, frame.minOrder]
        rfl
      · rw [if_neg ok] at result ⊢
        exact .inr (by rw [result, gone])
    · exact ⟨_, _, heap, rfl, .inl rfl⟩

/-- Two heaps of one shape with the same free blocks have the same bits and counts. -/
theorem Shows.bits_eq {other : BuddyHeap} (shows : Shows heap tiling) (frame : Frame heap other)
    (showsOther : Shows other tiling) : heap.bits = other.bits ∧ heap.numFree = other.numFree := by
  constructor
  · -- The bits of the arrays and their lengths are all that is stored.
    funext order
    have length : (heap.bits order).length = (other.bits order).length := by
      by_cases inside : heap.minOrder ≤ order ∧ order ≤ heap.maxOrder
      · rw [shows.length order inside.1 inside.2, showsOther.length order
          (frame.minOrder ▸ inside.1) (frame.maxOrder ▸ inside.2), frame.maxOrder]
      · rw [shows.no_length order inside, showsOther.no_length order
          (by rwa [frame.minOrder, frame.maxOrder])]
    refine eq_of_bitAt length fun i => ?_
    rw [Bool.eq_iff_iff, shows.bit, showsOther.bit]
  · funext order
    have counts := (shows.count order).trans (showsOther.count order).symm
    exact_mod_cast counts

/-- A new heap is one free block. -/
theorem saves_buddyInit {maxOrder minOrder : Nat} {base : UInt64} (max_le : maxOrder ≤ 32)
    (orders : maxOrder - minOrder ≤ 31)
    (starts : buddyInit maxOrder minOrder base = some heap) :
    Saves heap (Tiling.whole maxOrder) (fun _ => none) ∧ heap.maxOrder = maxOrder
      ∧ heap.symmetricHeap = base := by
  obtain ⟨rc, ht, creates, -, fresh⟩ := HashTable.init_spec (V := Nat) UInt64.toNat 100
  have success : (HashTable.init 100 : Option (HashRc × HashTable UInt64 Nat)).map Prod.fst
      = some .success := rfl
  rw [creates] at success
  obtain rfl : rc = .success := Option.some.inj success
  obtain ⟨rep, standard⟩ := fresh rfl
  unfold buddyInit at starts
  simp only [creates, Option.bind_eq_bind, Option.bind_some] at starts
  -- Without an array of the largest order its bit could not be set.
  by_cases min_le : minOrder ≤ maxOrder
  · have array : (if minOrder ≤ maxOrder ∧ maxOrder ≤ maxOrder then
        List.replicate (bitsToLongs (2 ^ (maxOrder - maxOrder))) 0#64 else [])
        = List.replicate 1 0#64 := by
      rw [if_pos ⟨min_le, le_refl _⟩, Nat.sub_self]
      rfl
    obtain ⟨longs, sets, length, bits⟩ :=
      setBit_spec (show 0 / 64 < (List.replicate 1 0#64).length by decide)
    rw [array, sets, Option.bind_some, Option.pure_def, Option.some.injEq] at starts
    subst starts
    refine ⟨⟨⟨⟨⟨min_le, max_le, orders⟩, fun order low high => ?_, fun order outside => ?_,
      fun order i => ?_, fun order => ?_, fun order i isFree => ?_⟩, tiles_whole, merged_whole,
      fun order i part => ?_⟩, rep, standard, fun addr order => ⟨nofun, ?_⟩⟩, rfl, rfl⟩
    · -- The arrays: one long for the largest order, as many as needed for the others.
      by_cases top : order = maxOrder
      · subst top
        simp only [update_self, length, Nat.sub_self]
        rfl
      · simp only [update_of_ne top]
        rw [if_pos ⟨low, high⟩, List.length_replicate]
    · have below : order ≠ maxOrder := by
        rintro rfl
        exact outside ⟨min_le, le_refl _⟩
      simp only [update_of_ne below]
      exact if_neg outside
    · -- One bit is set, the one of the whole heap.
      rw [whole_eq_free]
      by_cases top : order = maxOrder
      · subst top
        simp only [update_self, bits, bitAt_zeros, Bool.or_false, decide_eq_true_eq, true_and]
      · simp only [update_of_ne top, top, false_and, iff_false, Bool.not_eq_true]
        split
        · exact bitAt_zeros
        · exact bitAt_of_ge (Nat.zero_le _)
    · -- The counts: one for the largest order, zero for the others.
      by_cases top : order = maxOrder
      · subst top
        have only : {i | Tiling.whole order order i = .free} = {0} := by
          ext i
          simp [whole_eq_free]
        simp only [update_self, only, Set.encard_singleton]
        rfl
      · have none_free : {i | Tiling.whole maxOrder order i = .free} = ∅ := by
          ext i
          simp [whole_eq_free, top]
        simp only [update_of_ne top, none_free, Set.encard_empty]
        rfl
    · obtain ⟨rfl, rfl⟩ := whole_eq_free.mp isFree
      exact ⟨min_le, le_refl _, two_pow_pos _⟩
    · rw [(whole_ne_absent.mp part).1]
      exact min_le
    · rintro ⟨i, used, -⟩
      exact absurd used whole_ne_used
  · rw [if_neg (by omega)] at starts
    cases starts

/-- Without live blocks the partition is the whole heap. -/
theorem Saves.tiling_eq_whole (saves : Saves heap tiling live)
    (none_live : ∀ addr, live addr = none) : tiling = Tiling.whole heap.maxOrder := by
  refine saves.tiles.eq_whole saves.merged fun order i used => ?_
  have found := (saves.saved _ order).mpr ⟨i, used, rfl⟩
  rw [none_live] at found
  cases found

/-- A heap in order is sound, whatever it started as. -/
theorem Saves.sound (saves : Saves heap tiling live) {initial : BuddyHeap}
    (first : Saves initial (Tiling.whole heap.maxOrder) (fun _ => none))
    (frame : Frame heap initial) : Sound initial heap where
  partitions := saves.partitions
  counts order := by
    simp only [saves.bit]
    exact saves.count order
  buddies order i := by
    rintro ⟨isFree, buddy⟩
    rw [saves.bit] at isFree buddy
    exact saves.merged order i isFree buddy
  allocates size p i low bit := by
    rw [← findOrder_toNat] at low ⊢
    exact saves.allocates low bit
  aligns align size k p i power fits low bit := by
    have nonzero := ne_zero_of_power power
    have test := (and_sub_one_eq_zero_iff nonzero).mpr ⟨k, power⟩
    rw [← alignOrder_eq power fits] at low ⊢
    unfold BuddyHeap.align
    rw [if_neg nonzero, if_neg (not_not.mpr test)]
    exact saves.allocates low bit
  frees addr := by
    obtain ⟨after, freed, recorded, -⟩ := saves.frees addr
    exact ⟨after, freed, recorded⟩
  reallocs newSize _ tmpAllocated _ nonzero found := saves.reallocs newSize tmpAllocated nonzero found
  restores none_live := by
    -- Without live blocks the tiling is one free block again, and it determines the bits.
    have shows := saves.toShows
    rw [saves.tiling_eq_whole (saves.recorded_eq ▸ none_live)] at shows
    exact shows.bits_eq frame first.toShows

/-- The heap stays in order in every run. -/
theorem inv_of_small {maxOrder minOrder : Nat} {base : UInt64} {initial : BuddyHeap}
    (max_le : maxOrder ≤ 32) (orders : maxOrder - minOrder ≤ 31)
    (starts : buddyInit maxOrder minOrder base = some initial) (actions : List BuddyAction) :
    ∃ after, Machine.exec step initial actions = some after ∧ Frame initial after ∧ Inv after := by
  obtain ⟨saves, -, -⟩ := saves_buddyInit max_le orders starts
  -- A step keeps the frame and the invariant, so every run ends in such a state.
  refine Machine.exec_total (P := fun heap => Frame initial heap ∧ Inv heap) ?_
    ⟨Frame.refl, _, _, saves⟩
  rintro heap action ⟨frame, inv⟩
  obtain ⟨after, taken, frameStep, kept⟩ := inv.step action
  exact ⟨after, taken, frame.trans frameStep, kept⟩

/-- On a heap of at most 2^31 bytes every call returns, and the free and live blocks partition the
heap after any calls. -/
theorem heap_stays_partitioned (maxOrder minOrder : Nat) (base : UInt64) (initial : BuddyHeap)
    (small : maxOrder ≤ 31) (starts : buddyInit maxOrder minOrder base = some initial)
    (actions : List BuddyAction) :
    ∃ after, Machine.exec step initial actions = some after ∧ Sound initial after := by
  obtain ⟨first, top, -⟩ := saves_buddyInit (by omega) (by omega) starts
  obtain ⟨after, ran, frame, tiling, live, saves⟩ :=
    inv_of_small (by omega) (by omega) starts actions
  refine ⟨after, ran, saves.sound ?_ ⟨frame.maxOrder.symm, frame.minOrder.symm,
    frame.symmetricHeap.symm⟩⟩
  rw [frame.maxOrder, top]
  exact first

/-- Blocks of 64 bytes are halved, joined and moved. -/
theorem small_heap_stays_partitioned :
    ∃ initial, buddyInit 6 3 4096 = some initial ∧
      ∃ after, Machine.exec step initial
          [.alloc 9, .align 32 1, .realloc 20 4096 true, .free 4128, .alloc 100] = some after
        ∧ Sound initial after :=
  ⟨_, rfl, heap_stays_partitioned 6 3 4096 _ (by decide) rfl _⟩

end Runs

section Addresses

/-- What holds of the live blocks of a heap of a number of bytes. -/
structure Apart (userSize : UInt64) (heap : BuddyHeap) : Prop where
  disjoint : ∀ a b o p, heap.recorded a = some o → heap.recorded b = some p → a ≠ b →
    a.toNat + 2 ^ o ≤ b.toNat ∨ b.toNat + 2 ^ p ≤ a.toNat
  inside : ∀ a o, heap.recorded a = some o → heap.symmetricHeap.toNat ≤ a.toNat
    ∧ a.toNat + 2 ^ o ≤ heap.symmetricHeap.toNat + userSize.toNat
  /-- What an allocation returns is live afterwards, and large enough. -/
  returns : ∀ size addr after, heap.alloc size = some ((.success, some addr), after) →
    ∃ o, size.toNat ≤ 2 ^ o ∧ after.recorded = update heap.recorded addr (some o)
  returnsAligned : ∀ align size addr after,
    heap.align align size = some ((.success, some addr), after) →
    (∃ o, align.toNat ≤ 2 ^ o ∧ after.recorded = update heap.recorded addr (some o))
      ∧ (align.toNat ∣ heap.symmetricHeap.toNat → align.toNat ∣ addr.toNat)

/-- A block lies in the heap if the heap lies in the memory. -/
theorem Shows.addrOf_toNat (shows : Shows heap tiling) (part : tiling order i ≠ .absent)
    (inMemory : heap.symmetricHeap.toNat + 2 ^ heap.maxOrder ≤ 2 ^ 64) :
    (heap.addrOf order i).toNat = heap.symmetricHeap.toNat + i * 2 ^ order := by
  obtain ⟨below, small⟩ := shows.lt_of_part part
  rw [addrOf, UInt64.toNat_add, UInt64.toNat_ofNat',
    Nat.mod_eq_of_lt (show i * 2 ^ order < _ by omega), Nat.mod_eq_of_lt (by omega)]

/-- What an allocation returns is a block of the order asked for. -/
theorem Saves.returns (saves : Saves heap tiling live) {order : Nat} {addr : UInt64}
    {after : BuddyHeap} (returns : heap.doAlloc order = some ((.success, some addr), after)) :
    ∃ i tiling', addr = heap.addrOf (max heap.minOrder order) i
      ∧ Frame heap after ∧ Saves after tiling' after.recorded
      ∧ after.recorded = update heap.recorded addr (some (max heap.minOrder order)) := by
  rcases saves.doAlloc order with ⟨fails, -⟩ |
    ⟨i, after', tiling', succeeds, frame, savesAfter, -, -⟩
  · -- A call that fails does not return success.
    rw [fails] at returns
    cases returns
  rw [succeeds] at returns
  obtain ⟨⟨-, rfl⟩, rfl⟩ : (True ∧ heap.addrOf (max heap.minOrder order) i = addr)
      ∧ after' = after := by
    simpa using returns
  refine ⟨i, tiling', rfl, frame, ?_, ?_⟩
  · rw [savesAfter.recorded_eq]
    exact savesAfter
  · rw [savesAfter.recorded_eq, saves.recorded_eq]

/-- Parts of the partition do not overlap. -/
theorem Shows.disjoint (shows : Shows heap tiling) {p j : Nat} (part : tiling order i ≠ .absent)
    (other : tiling p j ≠ .absent) (different : ¬ (order = p ∧ i = j)) :
    i * 2 ^ order + 2 ^ order ≤ j * 2 ^ p ∨ j * 2 ^ p + 2 ^ p ≤ i * 2 ^ order := by
  -- Of two blocks that overlap, one contains the first cell of the other.
  have shared : ∀ cell, cell / 2 ^ order = i → cell / 2 ^ p ≠ j := by
    intro cell here there
    have same := shows.tiles.unique cell order p (by rw [here]; exact part)
      (by rw [there]; exact other)
    subst same
    exact different ⟨rfl, here.symm.trans there⟩
  by_contra overlap
  push Not at overlap
  rcases Nat.le_total (i * 2 ^ order) (j * 2 ^ p) with before | behind
  · refine shared (j * 2 ^ p) ?_ (Nat.mul_div_cancel _ (two_pow_pos _))
    exact contains_iff.mp ⟨before, overlap.1⟩
  · refine shared (i * 2 ^ order) (Nat.mul_div_cancel _ (two_pow_pos _)) ?_
    exact contains_iff.mp ⟨behind, overlap.2⟩

/-- The live blocks of a heap in order are apart. -/
theorem Saves.apart (saves : Saves heap tiling live) {userSize : UInt64}
    (power : userSize.toNat = 2 ^ heap.maxOrder)
    (inMemory : heap.symmetricHeap.toNat + userSize.toNat ≤ 2 ^ 64) : Apart userSize heap where
  -- Addresses do not wrap, so that blocks that are apart in the heap are apart in memory.
  disjoint a b o p liveA liveB different := by
    rw [power] at inMemory
    rw [saves.recorded_eq, saves.saved] at liveA liveB
    obtain ⟨i, usedA, rfl⟩ := liveA
    obtain ⟨j, usedB, rfl⟩ := liveB
    have partA := ne_absent_of_used usedA
    have partB := ne_absent_of_used usedB
    have apart := saves.toShows.disjoint partA partB (by
      rintro ⟨rfl, rfl⟩
      exact different rfl)
    rw [saves.addrOf_toNat partA inMemory, saves.addrOf_toNat partB inMemory]
    omega
  inside a o liveA := by
    rw [power] at inMemory ⊢
    rw [saves.recorded_eq, saves.saved] at liveA
    obtain ⟨i, used, rfl⟩ := liveA
    have part := ne_absent_of_used used
    have upTo := saves.partitions.inside ⟨i * 2 ^ o, o⟩ ((saves.block_iff _).mpr ⟨i, rfl, part⟩)
    dsimp only at upTo
    rw [saves.addrOf_toNat part inMemory]
    omega
  returns size addr after returned := by
    obtain ⟨i, tiling', -, -, -, updated⟩ := saves.returns returned
    refine ⟨_, ?_, updated⟩
    rw [findOrder_toNat, ← Nat.clog_le_iff_le_pow (by decide)]
    exact le_max_right _ _
  returnsAligned align size addr after returned := by
    rw [power] at inMemory
    -- Only powers of two pass the tests of the alignment.
    unfold BuddyHeap.align at returned
    split at returned
    · cases returned
    split at returned
    · cases returned
    rename_i nonzero test
    obtain ⟨k, isPower⟩ := (and_sub_one_eq_zero_iff nonzero).mp (not_not.mp test)
    obtain ⟨i, tiling', rfl, frame, savesAfter, updated⟩ := saves.returns returned
    have large : k ≤ max heap.minOrder (alignOrder align size) :=
      (le_alignOrder isPower).trans (le_max_right _ _)
    refine ⟨⟨_, ?_, updated⟩, fun aligned => ?_⟩
    · rw [isPower]
      exact Nat.pow_le_pow_right (by decide) large
    · -- The address is a multiple of the block behind a base that is aligned.
      have live' : after.recorded (heap.addrOf (max heap.minOrder (alignOrder align size)) i)
          = some (max heap.minOrder (alignOrder align size)) := by
        rw [updated, update_self]
      obtain ⟨j, used, equal⟩ := (savesAfter.saved _ _).mp live'
      rw [equal, savesAfter.addrOf_toNat (ne_absent_of_used used)
        (by rw [frame.symmetricHeap, frame.maxOrder]; exact inMemory), frame.symmetricHeap]
      refine Nat.dvd_add aligned (Dvd.dvd.mul_left ?_ _)
      rw [isPower]
      exact Nat.pow_dvd_pow _ large

/-- On a heap of a power of two of at most 2^32 bytes, the live blocks are apart and inside the
heap after any calls. -/
theorem live_blocks_stay_apart (userSize base : UInt64) (initial : BuddyHeap) (order : Nat)
    (starts : moduleInit userSize base = some (.success, some initial))
    (power : userSize.toNat = 2 ^ order) (small : order ≤ 32)
    (inMemory : base.toNat + userSize.toNat ≤ 2 ^ 64) (actions : List BuddyAction) :
    ∃ after, Machine.exec step initial actions = some after ∧ Apart userSize after := by
  have top : memheapLog2 userSize.toNat = order := by
    rw [memheapLog2_eq userSize.toNat_lt (by rw [power]; exact two_pow_pos _), power,
      Nat.clog_pow _ _ (by decide)]
  unfold moduleInit at starts
  -- The order of the heap is the logarithm of its size.
  rw [if_neg (ne_zero_of_power power), top] at starts
  cases created : buddyInit order memheapBaseMinOrder base with
  | none =>
    rw [created] at starts
    cases starts
  | some heap =>
    rw [created] at starts
    obtain rfl : heap = initial := by simpa using starts
    have orders : order - memheapBaseMinOrder ≤ 31 := by
      unfold memheapBaseMinOrder
      omega
    obtain ⟨-, maxOrder, start⟩ := saves_buddyInit small orders created
    obtain ⟨after, ran, frame, tiling, live, saves⟩ := inv_of_small small orders created actions
    refine ⟨after, ran, saves.apart ?_ ?_⟩
    · rw [frame.maxOrder, maxOrder, power]
    · rw [frame.symmetricHeap, start]
      exact inMemory

/-- A heap of 4 GiB. -/
theorem four_gigabytes_stay_apart :
    ∃ initial, moduleInit (2 ^ 32) 4096 = some (.success, some initial) ∧
      ∃ after, Machine.exec step initial
          [.alloc (2 ^ 31), .align 4096 10, .free 4096, .alloc 5] = some after
        ∧ Apart (2 ^ 32) after :=
  ⟨_, rfl, live_blocks_stay_apart (2 ^ 32) 4096 _ 32 rfl (by decide) (by decide) (by decide) _⟩

/-- On a heap of 8 GiB the third block of 2 GiB is given the address of the first one, and on a
heap of 24 bytes a block of 32 bytes is given away. -/
theorem large_heap_repeats_address :
    ((moduleInit (2 ^ 33) 4096).bind fun start => start.2.bind fun heap =>
        (heap.alloc (2 ^ 31)).bind fun first => (first.2.alloc (2 ^ 31)).bind fun second =>
          (second.2.alloc (2 ^ 31)).map fun third => (first.1, second.1, third.1))
      = some ((.success, some 4096), (.success, some (4096 + 2 ^ 31)), (.success, some 4096))
    ∧ ((moduleInit 24 4096).bind fun start => start.2.bind fun heap =>
        (heap.alloc 32).map fun block => (block.1, block.2.recorded 4096))
      = some ((.success, some 4096), some 5) := by
  decide +kernel

end Addresses

end EduMpi.Shmem.BuddyHeap
