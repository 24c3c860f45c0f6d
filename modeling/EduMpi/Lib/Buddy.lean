import Mathlib.Data.Nat.Bitwise
import Mathlib.Data.Nat.Find
import Mathlib.Tactic.Common

/-! Partitions of a range of cells into blocks that are halved and joined with their buddies. -/

namespace Buddy

/-- What a block is: no part of the partition, a free part, or a part in use. -/
inductive Use where
  | absent | free | used
deriving DecidableEq, Repr

/-- What each block is, by its order and its number among the blocks of that order. -/
abbrev Tiling := Nat → Nat → Use

namespace Tiling

/-- One block becomes something else. -/
def put (tiling : Tiling) (order i : Nat) (use : Use) : Tiling :=
  fun o j => if o = order ∧ j = i then use else tiling o j

/-- A block gives way to its halves; the lower half is in use and the upper one is free. -/
def split (tiling : Tiling) (order i : Nat) : Tiling :=
  ((tiling.put (order + 1) i .absent).put order (2 * i) .used).put order (2 * i + 1) .free

/-- A block and its buddy give way to the block they are the halves of. -/
def merge (tiling : Tiling) (order i : Nat) : Tiling :=
  ((tiling.put order i .absent).put order (i ^^^ 1) .absent).put (order + 1) (i / 2) .used

/-- The whole range is one free block. -/
def whole (top : Nat) : Tiling := fun order i => if order = top ∧ i = 0 then .free else .absent

end Tiling

/-- The blocks of the partition lie in the range, and each cell of the range is in exactly one. -/
structure Tiles (top : Nat) (tiling : Tiling) : Prop where
  inside : ∀ order i, tiling order i ≠ .absent → order ≤ top ∧ i < 2 ^ (top - order)
  covers : ∀ cell < 2 ^ top, ∃ order, tiling order (cell / 2 ^ order) ≠ .absent
  unique : ∀ cell a b, tiling a (cell / 2 ^ a) ≠ .absent → tiling b (cell / 2 ^ b) ≠ .absent →
    a = b

/-- No two buddies are free. -/
def Merged (tiling : Tiling) : Prop :=
  ∀ order i, tiling order i = .free → tiling order (i ^^^ 1) ≠ .free

section Buddies

variable {i j : Nat}

theorem xor_one_eq : i ^^^ 1 = if i % 2 = 0 then i + 1 else i - 1 := by
  -- The halves of both sides agree, and so do their lowest bits.
  have half : (i ^^^ 1) / 2 = i / 2 := by rw [Nat.xor_div_two]; simp
  have low : (i ^^^ 1) % 2 = (i + 1) % 2 := Nat.xor_mod_two_eq
  split <;> omega

theorem xor_one_div_two : (i ^^^ 1) / 2 = i / 2 := by
  rw [xor_one_eq]
  split <;> omega

theorem xor_one_ne : i ^^^ 1 ≠ i := by
  rw [xor_one_eq]
  split <;> omega

theorem xor_one_xor_one : i ^^^ 1 ^^^ 1 = i := by
  rw [Nat.xor_assoc, Nat.xor_self, Nat.xor_zero]

theorem two_mul_xor_one : (2 * i) ^^^ 1 = 2 * i + 1 := by
  rw [xor_one_eq, if_pos (by omega)]

theorem div_pow_succ (cell order : Nat) : cell / 2 ^ (order + 1) = cell / 2 ^ order / 2 := by
  rw [Nat.pow_succ, Nat.div_div_eq_div_mul]

/-- There are twice as many blocks of the order below. -/
theorem two_pow_sub {top order : Nat} (below : order < top) :
    2 ^ (top - order) = 2 * 2 ^ (top - (order + 1)) := by
  rw [show top - order = top - (order + 1) + 1 by omega, Nat.pow_succ']

/-- The halves of a block are a block and its buddy. -/
theorem half_eq_iff : j / 2 = i / 2 ↔ j = i ∨ j = i ^^^ 1 := by
  rw [xor_one_eq]
  split <;> omega

end Buddies

section Tilings

variable {top order i : Nat} {tiling : Tiling} {use : Use} {o j : Nat}

theorem put_self : tiling.put order i use order i = use := if_pos ⟨rfl, rfl⟩

theorem put_of_ne (other : ¬ (o = order ∧ j = i)) :
    tiling.put order i use o j = tiling o j := if_neg other

/-- A part of the partition may change between free and in use. -/
theorem Tiles.put (tiles : Tiles top tiling) (part : tiling order i ≠ .absent)
    (stays : use ≠ .absent) : Tiles top (tiling.put order i use) := by
  -- The same blocks are parts before and after.
  have same : ∀ o j, tiling.put order i use o j ≠ .absent ↔ tiling o j ≠ .absent := by
    intro o j
    unfold Tiling.put
    split
    · rename_i here
      obtain ⟨rfl, rfl⟩ := here
      exact ⟨fun _ => part, fun _ => stays⟩
    · rfl
  refine ⟨fun o j present => tiles.inside o j ((same o j).mp present), fun cell below => ?_,
    fun cell a b inA inB => tiles.unique cell a b ((same _ _).mp inA) ((same _ _).mp inB)⟩
  obtain ⟨o, present⟩ := tiles.covers cell below
  exact ⟨o, (same _ _).mpr present⟩

/-- The halves of a part are no parts. -/
theorem Tiles.half_absent (tiles : Tiles top tiling) {j : Nat}
    (part : tiling (order + 1) (j / 2) ≠ .absent) : tiling order j = .absent := by
  -- Otherwise the first cell of the half is in both.
  by_contra half
  have cell : j * 2 ^ order / 2 ^ order = j := Nat.mul_div_cancel _ (Nat.two_pow_pos _)
  have same := tiles.unique (j * 2 ^ order) order (order + 1) (by rw [cell]; exact half)
    (by rw [div_pow_succ, cell]; exact part)
  omega

/-- What is halved of a part is no part. -/
theorem Tiles.joined_absent (tiles : Tiles top tiling) (part : tiling order i ≠ .absent) :
    tiling (order + 1) (i / 2) = .absent := by
  by_contra joined
  exact part (tiles.half_absent joined)

/-- The parts after a block was halved. -/
theorem split_ne_absent :
    tiling.split order i o j ≠ .absent
      ↔ (o = order ∧ j / 2 = i) ∨ (tiling o j ≠ .absent ∧ ¬ (o = order + 1 ∧ j = i)) := by
  unfold Tiling.split Tiling.put
  by_cases half : o = order ∧ j / 2 = i
  · -- One of the two halves.
    obtain ⟨rfl, rfl⟩ := half
    refine ⟨fun _ => .inl ⟨rfl, rfl⟩, fun _ => ?_⟩
    rcases Nat.mod_two_eq_zero_or_one j with even | odd
    · rw [if_neg (by omega), if_pos (by omega)]
      exact Use.noConfusion
    · rw [if_pos (by omega)]
      exact Use.noConfusion
  · have upper : ¬ (o = order ∧ j = 2 * i + 1) := by omega
    have lower : ¬ (o = order ∧ j = 2 * i) := by omega
    rw [if_neg upper, if_neg lower]
    split <;> simp_all

/-- Halving a part keeps the partition. -/
theorem Tiles.split (tiles : Tiles top tiling) (part : tiling (order + 1) i ≠ .absent) :
    Tiles top (tiling.split order i) := by
  have place := tiles.inside _ _ part
  refine ⟨fun o j present => ?_, fun cell below => ?_, fun cell a b inA inB => ?_⟩
  · -- The halves lie where the block lay.
    rcases split_ne_absent.mp present with ⟨rfl, half⟩ | ⟨old, -⟩
    · have double := two_pow_sub place.1
      omega
    · exact tiles.inside o j old
  · -- A cell of the block is in one of its halves.
    obtain ⟨o, present⟩ := tiles.covers cell below
    by_cases here : o = order + 1 ∧ cell / 2 ^ o = i
    · obtain ⟨rfl, half⟩ := here
      rw [div_pow_succ] at half
      exact ⟨order, split_ne_absent.mpr (.inl ⟨rfl, half⟩)⟩
    · exact ⟨o, split_ne_absent.mpr (.inr ⟨present, here⟩)⟩
  · -- A cell in a half was in the block, and so in no other part.
    have in_block : ∀ o, cell / 2 ^ order / 2 = i → tiling o (cell / 2 ^ o) ≠ .absent →
        o = order + 1 ∧ cell / 2 ^ o = i := by
      intro o half present
      have same := tiles.unique cell o (order + 1) present (by rw [div_pow_succ, half]; exact part)
      subst same
      exact ⟨rfl, by rw [div_pow_succ, half]⟩
    rcases split_ne_absent.mp inA with ⟨rfl, halfA⟩ | ⟨oldA, otherA⟩ <;>
      rcases split_ne_absent.mp inB with ⟨rfl, halfB⟩ | ⟨oldB, otherB⟩
    · rfl
    · exact absurd (in_block b halfA oldB) otherB
    · exact absurd (in_block a halfB oldA) otherA
    · exact tiles.unique cell a b oldA oldB

/-- Halving a part in use frees its upper half. -/
theorem Tiles.split_eq_free (tiles : Tiles top tiling) (part : tiling (order + 1) i = .used) :
    tiling.split order i o j = .free ↔ (o = order ∧ j = 2 * i + 1) ∨ tiling o j = .free := by
  -- Before the split neither half was a part.
  have lower : tiling order (2 * i) = .absent := tiles.half_absent (by
    rw [show 2 * i / 2 = i by omega, part]
    exact Use.noConfusion)
  unfold Tiling.split Tiling.put
  by_cases upper : o = order ∧ j = 2 * i + 1
  · simp [upper]
  rw [if_neg upper]
  split
  · rename_i here
    rw [here.1, here.2, lower]
    simp
  · split
    · rename_i here
      rw [here.1, here.2, part]
      simp
    · simp [upper]

/-- Halving a part in use leaves its lower half in use. -/
theorem split_eq_used (part : tiling order (2 * i + 1) = .absent) :
    tiling.split order i o j = .used
      ↔ (o = order ∧ j = 2 * i) ∨ (tiling o j = .used ∧ ¬ (o = order + 1 ∧ j = i)) := by
  unfold Tiling.split Tiling.put
  -- The upper half, the lower half and the whole, in the order in which the split writes them.
  split
  · rename_i upper
    rw [upper.1, upper.2, part]
    simp
  · split
    · simp_all
    · split <;> simp_all

/-- After a split there are no new free buddies. -/
theorem Merged.split (merged : Merged tiling) (tiles : Tiles top tiling)
    (part : tiling (order + 1) i = .used) : Merged (tiling.split order i) := by
  intro o j free buddy
  rw [tiles.split_eq_free part] at free buddy
  have lower : tiling order (2 * i) = .absent := tiles.half_absent (by
    rw [show 2 * i / 2 = i by omega, part]
    exact Use.noConfusion)
  have upper_buddy : (2 * i + 1) ^^^ 1 = 2 * i := by rw [xor_one_eq, if_neg (by omega)]; omega
  rcases free with ⟨rfl, rfl⟩ | free
  · -- The buddy of the new free half is the lower half.
    rw [upper_buddy, lower] at buddy
    simp at buddy
  · -- An old free block has the new one as its buddy only if it is the lower half.
    rcases buddy with ⟨rfl, equal⟩ | buddy
    · have same : j = 2 * i := by rw [← upper_buddy, ← equal, xor_one_xor_one]
      rw [same, lower] at free
      cases free
    · exact merged o j free buddy

/-- The parts after a block and its buddy were joined. -/
theorem merge_ne_absent :
    tiling.merge order i o j ≠ .absent
      ↔ (o = order + 1 ∧ j = i / 2) ∨ (tiling o j ≠ .absent ∧ ¬ (o = order ∧ j / 2 = i / 2)) := by
  unfold Tiling.merge Tiling.put
  by_cases joined : o = order + 1 ∧ j = i / 2
  · simp [joined]
  · rw [if_neg joined, half_eq_iff]
    split
    · simp_all
    · split <;> simp_all

/-- Joining two parts that are buddies keeps the partition. -/
theorem Tiles.merge (tiles : Tiles top tiling) (part : tiling order i ≠ .absent)
    (buddy : tiling order (i ^^^ 1) ≠ .absent) : Tiles top (tiling.merge order i) := by
  have place := tiles.inside _ _ part
  have buddyPlace := tiles.inside _ _ buddy
  -- Each half of the joined block is a part.
  have halves : ∀ j, j / 2 = i / 2 → tiling order j ≠ .absent := by
    intro j half
    rcases half_eq_iff.mp half with rfl | rfl
    · exact part
    · exact buddy
  -- There is no buddy of the whole range, so there is room for the joined block.
  have below_top : order < top := by
    by_contra reached
    have whole : top - order = 0 := by omega
    rw [whole] at place buddyPlace
    exact xor_one_ne (show i ^^^ 1 = i by omega)
  have double := two_pow_sub below_top
  refine ⟨fun o j present => ?_, fun cell below => ?_, fun cell a b inA inB => ?_⟩
  · rcases merge_ne_absent.mp present with ⟨rfl, rfl⟩ | ⟨old, -⟩
    · omega
    · exact tiles.inside o j old
  · -- A cell of one of the halves is in the joined block.
    obtain ⟨o, present⟩ := tiles.covers cell below
    by_cases here : o = order ∧ cell / 2 ^ o / 2 = i / 2
    · obtain ⟨rfl, half⟩ := here
      exact ⟨o + 1, merge_ne_absent.mpr (.inl ⟨rfl, by rw [div_pow_succ, half]⟩)⟩
    · exact ⟨o, merge_ne_absent.mpr (.inr ⟨present, here⟩)⟩
  · -- A cell of the joined block was in one of its halves, and so in no other part.
    have in_half : ∀ o, cell / 2 ^ (order + 1) = i / 2 → tiling o (cell / 2 ^ o) ≠ .absent →
        o = order ∧ cell / 2 ^ o / 2 = i / 2 := by
      intro o joined present
      rw [div_pow_succ] at joined
      have same := tiles.unique cell o order present (halves _ joined)
      subst same
      exact ⟨rfl, joined⟩
    rcases merge_ne_absent.mp inA with ⟨rfl, joinedA⟩ | ⟨oldA, otherA⟩ <;>
      rcases merge_ne_absent.mp inB with ⟨rfl, joinedB⟩ | ⟨oldB, otherB⟩
    · rfl
    · exact absurd (in_half b joinedA oldB) otherB
    · exact absurd (in_half a joinedB oldA) otherA
    · exact tiles.unique cell a b oldA oldB

/-- Joining takes a free buddy out of the free blocks. -/
theorem Tiles.merge_eq_free (tiles : Tiles top tiling) (part : tiling order i = .used) :
    tiling.merge order i o j = .free ↔ tiling o j = .free ∧ ¬ (o = order ∧ j = i ^^^ 1) := by
  -- The joined block was no part, since its half was one.
  have joined : tiling (order + 1) (i / 2) = .absent := tiles.joined_absent (by
    rw [part]
    exact Use.noConfusion)
  unfold Tiling.merge Tiling.put
  split
  · rename_i here
    rw [here.1, here.2, joined]
    simp
  split
  · simp_all
  · split
    · rename_i here
      rw [here.1, here.2, part]
      simp
    · simp_all

/-- Joining moves the block in use up. -/
theorem merge_eq_used (buddy : tiling order (i ^^^ 1) = .free) :
    tiling.merge order i o j = .used
      ↔ (o = order + 1 ∧ j = i / 2) ∨ (tiling o j = .used ∧ ¬ (o = order ∧ j = i)) := by
  unfold Tiling.merge Tiling.put
  -- The joined block, the buddy and the block itself, in the order of the writes.
  split
  · simp_all
  · split
    · rename_i here
      simp_all
    · split <;> simp_all

theorem Merged.merge (merged : Merged tiling) (tiles : Tiles top tiling)
    (part : tiling order i = .used) : Merged (tiling.merge order i) := by
  intro o j free buddy
  rw [tiles.merge_eq_free part] at free buddy
  exact merged o j free.1 buddy.1

theorem put_eq_self :
    tiling.put order i use o j = use ↔ (o = order ∧ j = i) ∨ tiling o j = use := by
  unfold Tiling.put
  split <;> simp_all

theorem put_eq_other {use' : Use} (other : use ≠ use') :
    tiling.put order i use o j = use' ↔ tiling o j = use' ∧ ¬ (o = order ∧ j = i) := by
  unfold Tiling.put
  split <;> simp_all

/-- A block whose buddy is not free may become free. -/
theorem Merged.put_free (merged : Merged tiling) (buddy : tiling order (i ^^^ 1) ≠ .free) :
    Merged (tiling.put order i .free) := by
  intro o j free other
  rw [put_eq_self] at free other
  -- The new free block could only meet its own buddy, which is not free.
  rcases free with ⟨rfl, rfl⟩ | free
  · rcases other with ⟨-, equal⟩ | other
    · exact xor_one_ne equal
    · exact buddy other
  · rcases other with ⟨rfl, equal⟩ | other
    · rw [← equal, xor_one_xor_one] at buddy
      exact buddy free
    · exact merged o j free other

theorem Merged.put_used (merged : Merged tiling) : Merged (tiling.put order i .used) := by
  intro o j free other
  rw [put_eq_other Use.noConfusion] at free other
  exact merged o j free.1 other.1

theorem whole_eq_free : Tiling.whole top order i = .free ↔ order = top ∧ i = 0 := by
  unfold Tiling.whole
  split <;> simp_all

theorem whole_ne_absent : Tiling.whole top order i ≠ .absent ↔ order = top ∧ i = 0 := by
  unfold Tiling.whole
  split <;> simp_all

theorem whole_ne_used : Tiling.whole top order i ≠ .used := by
  unfold Tiling.whole
  split <;> simp

theorem tiles_whole : Tiles top (Tiling.whole top) := by
  refine ⟨fun order i present => ?_, fun cell below => ?_, fun cell a b inA inB => ?_⟩
  · obtain ⟨rfl, rfl⟩ := whole_ne_absent.mp present
    exact ⟨le_refl _, by rw [Nat.sub_self]; exact Nat.one_pos⟩
  · exact ⟨top, whole_ne_absent.mpr ⟨rfl, Nat.div_eq_of_lt below⟩⟩
  · rw [(whole_ne_absent.mp inA).1, (whole_ne_absent.mp inB).1]

theorem merged_whole : Merged (Tiling.whole top) := by
  intro order i free buddy
  rw [whole_eq_free] at free buddy
  exact xor_one_ne (buddy.2.trans free.2.symm)

/-- A partition of free blocks only, none of them buddies, is the whole range. -/
theorem Tiles.eq_whole (tiles : Tiles top tiling) (merged : Merged tiling)
    (unused : ∀ order i, tiling order i ≠ .used) : tiling = Tiling.whole top := by
  have is_free : ∀ order i, tiling order i ≠ .absent → tiling order i = .free := by
    intro order i present
    cases block : tiling order i with
    | absent => exact absurd block present
    | free => rfl
    | used => exact absurd block (unused order i)
  classical
  -- Look at a part of the smallest order that there is.
  have parts : ∃ order i, tiling order i ≠ .absent :=
    (tiles.covers 0 (Nat.two_pow_pos _)).imp fun _ part => ⟨_, part⟩
  obtain ⟨i, present⟩ := Nat.find_spec parts
  have none_smaller : ∀ o < Nat.find parts, ∀ j, tiling o j = .absent := fun o less j =>
    by_contra fun part => Nat.find_min parts less ⟨j, part⟩
  generalize Nat.find parts = order at present none_smaller
  -- A smallest part is the whole range: otherwise a part in its buddy's place would be smaller,
  -- would be the buddy, or would contain both.
  have is_top : order = top := by
    obtain ⟨upTo, below⟩ := tiles.inside order i present
    by_contra not_top
    have double := two_pow_sub (lt_of_le_of_ne upTo not_top)
    have buddy_below : i ^^^ 1 < 2 ^ (top - order) := by
      have half := @xor_one_div_two i
      omega
    have cells : 2 ^ (top - order) * 2 ^ order = 2 ^ top := by
      rw [← Nat.pow_add, Nat.sub_add_cancel upTo]
    obtain ⟨o, part⟩ := tiles.covers ((i ^^^ 1) * 2 ^ order)
      (cells ▸ Nat.mul_lt_mul_of_pos_right buddy_below (Nat.two_pow_pos _))
    rcases Nat.lt_trichotomy o order with smaller | rfl | larger
    · exact part (none_smaller o smaller _)
    · rw [Nat.mul_div_cancel _ (Nat.two_pow_pos _)] at part
      exact merged o i (is_free _ _ present) (is_free _ _ part)
    · -- The larger part holds the cells of the block, too.
      obtain ⟨above, rfl⟩ := Nat.exists_eq_add_of_lt larger
      have shared : i * 2 ^ order / 2 ^ (order + above + 1)
          = (i ^^^ 1) * 2 ^ order / 2 ^ (order + above + 1) := by
        have both : ∀ j, j * 2 ^ order / 2 ^ (order + above + 1) = j / 2 / 2 ^ above := by
          intro j
          rw [Nat.add_assoc, Nat.pow_add, ← Nat.div_div_eq_div_mul,
            Nat.mul_div_cancel _ (Nat.two_pow_pos _), Nat.pow_succ', ← Nat.div_div_eq_div_mul]
        rw [both, both, xor_one_div_two]
      have same := tiles.unique (i * 2 ^ order) order (order + above + 1)
        (by rw [Nat.mul_div_cancel _ (Nat.two_pow_pos _)]; exact present) (by rw [shared]; exact part)
      omega
  -- All parts are at least that large, so the whole is the only one.
  have only_whole : ∀ o j, tiling o j ≠ .absent → o = top ∧ j = 0 := by
    intro o j part
    obtain ⟨upTo, below⟩ := tiles.inside o j part
    have at_top : o = top := by
      by_contra other
      exact part (none_smaller o (by omega) j)
    rw [at_top, Nat.sub_self] at below
    exact ⟨at_top, by omega⟩
  funext o j
  unfold Tiling.whole
  split
  · rename_i here
    obtain ⟨-, rfl⟩ := only_whole order i present
    rw [here.1, here.2, ← is_top]
    exact is_free _ _ present
  · rename_i elsewhere
    by_contra part
    exact elsewhere (only_whole o j part)

end Tilings

end Buddy
