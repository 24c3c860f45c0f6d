import EduMpi.Lib.Ints
import Mathlib.Data.Nat.Bitwise
import Mathlib.Tactic.Common

/-! The lock word of the distributed lock: two halves of an unsigned word of four or eight bytes. -/

namespace EduMpi.Shmem

open Ints

/-- The size in bytes of a lock variable. -/
inductive LockSize where
  | four
  | eight
deriving DecidableEq, Repr

namespace LockSize

/-- The number of bits of one half of the word. -/
def half : LockSize → Nat
  | four => 16
  | eight => 32

/-- The number of values of one half of the word. -/
def base (size : LockSize) : Nat := 2 ^ size.half

/-- What a half can hold such that it is read back as a non-negative `int`. -/
def room : LockSize → Nat
  | four => 2 ^ 16
  | eight => 2 ^ 31

/-- The value an `int` has once it is converted to `uint64_t`. -/
def uint64 (x : Int) : Nat := (x % 2 ^ 64).toNat

variable (size : LockSize)

/-- The two halves as values of type `int`. -/
def extract2Words (lock : Nat) : Int × Int :=
  (int32 (lock / size.base : Nat), int32 (lock % size.base : Nat))

/-- The bits of a value that are stored in a word. -/
def cut (value : Nat) : Nat := value % (size.base * size.base)

/-- The word of two halves; what does not fit is cut off when the word is stored. -/
def pack2Words (one two : Int) : Nat :=
  size.cut (uint64 two ||| uint64 one * size.base % 2 ^ 64)

/-- The count of nested sets; only the top bit of an `int` is masked. -/
def lockExtractCounter (lock : Nat) : Int :=
  let count := (size.extract2Words lock).1
  if count < 0 then count + 2 ^ 31 else count

/-- The PE to be informed next, or -1. -/
def lockExtractPeNext (lock : Nat) : Int :=
  let peNext := (size.extract2Words lock).2
  if 0 ≤ peNext then peNext - 1 else peNext

/-- The last PE of the queue, or -1. -/
def lockExtractPeLast (lock : Nat) : Int :=
  let peLast := (size.extract2Words lock).1
  if 0 ≤ peLast then peLast - 1 else peLast

/-- The word without a next PE whose last PE is this one. -/
def lockPackPeNextPeLast (peNext peLast : Int) : Nat := size.pack2Words (peLast + 1) (peNext + 1)

/-- The word an attempt of the atomic `pack_first_word` writes over the one it read. -/
def packFirstWord (one : Int) (lock : Nat) : Nat :=
  size.pack2Words one (size.extract2Words lock).2

/-- The word an attempt of the atomic `pack_second_word` writes over the one it read. -/
def packSecondWord (two : Int) (lock : Nat) : Nat :=
  size.pack2Words (size.extract2Words lock).1 two

/-- Sets the last PE in a local copy; the loop never ends when the half is too narrow for it. -/
def lockPackPeLast (peLast : Int) (lock : Nat) : Option Nat :=
  let written := lock % size.base ||| size.pack2Words (peLast + 1) 0
  if (size.extract2Words written).1 = peLast + 1 then some written else none

/-- The bit in which a PE is informed that the lock is its own. -/
def informBit : Nat := size.base * size.base / 2

/-- Whether the inform bit of a word is set. -/
def informed (lock : Nat) : Bool := lock / size.informBit ≠ 0

/-- The word once it is informed. -/
def inform (lock : Nat) : Nat := lock ||| size.informBit

/-- The word after an atomic addition. -/
def fadd (lock value : Nat) : Nat := size.cut (lock + value)

/-- What an atomic addition returns for the old word; that of four bytes comes back as an `int`. -/
def faddResult (lock : Nat) : Nat :=
  match size with
  | four => uint64 (int32 lock)
  | eight => lock

/-! Words whose halves stay in their range. -/

variable {size} {one two lock pe : Nat}

/-- The word of two halves in their range. -/
def ofHalves (size : LockSize) (one two : Nat) : Nat := one * size.base + two

theorem ofHalves_self (size : LockSize) (lock : Nat) :
    size.ofHalves (lock / size.base) (lock % size.base) = lock := Nat.div_add_mod' ..

theorem room_le_base (size : LockSize) : size.room ≤ size.base := by cases size <;> decide

theorem room_le_int (size : LockSize) : size.room ≤ 2 ^ 31 := by cases size <;> decide

theorem base_pos : 0 < size.base := by cases size <;> decide

theorem uint64_of_nat (small : one < 2 ^ 64) : uint64 one = one := by
  unfold uint64
  omega

/-- The halves do not overlap, so the disjunction of their bits is the sum. -/
theorem lor_ofHalves (twoFits : two < size.base) :
    two ||| one * size.base = size.ofHalves one two := by
  have sum := Nat.shiftLeft_add_eq_or_of_lt (b := two) (i := size.half) twoFits one
  rw [Nat.shiftLeft_eq] at sum
  rw [Nat.lor_comm]
  exact sum.symm

theorem ofHalves_lt (oneFits : one < size.base) (twoFits : two < size.base) :
    size.ofHalves one two < size.base * size.base := by
  calc one * size.base + two < one * size.base + size.base := by omega
    _ = (one + 1) * size.base := by rw [Nat.add_mul, Nat.one_mul]
    _ ≤ size.base * size.base := Nat.mul_le_mul_right _ oneFits

theorem pack2Words_eq (oneFits : one < size.base) (twoFits : two < size.base) :
    size.pack2Words one two = size.ofHalves one two := by
  have narrow : size.base ≤ 2 ^ 32 := by cases size <;> decide
  have wide : size.base * size.base ≤ 2 ^ 64 := by cases size <;> decide
  have fits : one * size.base < 2 ^ 64 := by
    have := ofHalves_lt oneFits twoFits
    unfold ofHalves at this
    omega
  unfold pack2Words cut
  rw [uint64_of_nat (by omega), uint64_of_nat (by omega), Nat.mod_eq_of_lt fits,
    lor_ofHalves twoFits, Nat.mod_eq_of_lt (ofHalves_lt oneFits twoFits)]

@[simp] theorem ofHalves_div (twoFits : two < size.base) : size.ofHalves one two / size.base = one := by
  unfold ofHalves
  rw [Nat.add_comm, Nat.add_mul_div_right _ _ base_pos, Nat.div_eq_of_lt twoFits, Nat.zero_add]

@[simp] theorem ofHalves_mod (twoFits : two < size.base) : size.ofHalves one two % size.base = two := by
  unfold ofHalves
  rw [Nat.add_comm, Nat.add_mul_mod_self_right, Nat.mod_eq_of_lt twoFits]

/-- Two words with halves in their range are equal exactly when their halves are. -/
theorem ofHalves_inj {one' two' : Nat} (fits : two < size.base) (fits' : two' < size.base) :
    size.ofHalves one two = size.ofHalves one' two' ↔ one = one' ∧ two = two' := by
  constructor
  · intro same
    have left : size.ofHalves one two / size.base = one := ofHalves_div fits
    have right : size.ofHalves one two % size.base = two := ofHalves_mod fits
    rw [same, ofHalves_div fits'] at left
    rw [same, ofHalves_mod fits'] at right
    exact ⟨left.symm, right.symm⟩
  · rintro ⟨rfl, rfl⟩
    rfl

theorem int32_nat (small : one < 2 ^ 31) : int32 (one : Int) = one :=
  int32_of_mem (by omega) (by omega)

/-- The second half of a word reads as the `int` that was packed. -/
theorem extract2Words_snd (fits : two < size.room) :
    (size.extract2Words (size.ofHalves one two)).2 = two := by
  have := size.room_le_base
  have := size.room_le_int
  change int32 (size.ofHalves one two % size.base : Nat) = two
  rw [ofHalves_mod (by omega), int32_nat (by omega)]

/-- The first half of a word reads as the `int` that was packed. -/
theorem extract2Words_fst (oneFits : one < size.room) (twoFits : two < size.room) :
    (size.extract2Words (size.ofHalves one two)).1 = one := by
  have := size.room_le_base
  have := size.room_le_int
  change int32 (size.ofHalves one two / size.base : Nat) = one
  rw [ofHalves_div (by omega), int32_nat (by omega)]

theorem lockExtractCounter_eq (oneFits : one < size.room) (twoFits : two < size.room) :
    size.lockExtractCounter (size.ofHalves one two) = one := by
  unfold lockExtractCounter
  rw [extract2Words_fst oneFits twoFits]
  exact if_neg (by omega)

/-- In a word of eight bytes the mask takes the inform bit off the count. -/
theorem lockExtractCounter_eight (oneFits : one < 2 ^ 31) (twoFits : two < 2 ^ 31) :
    eight.lockExtractCounter (eight.ofHalves (one + eight.base / 2) two) = one := by
  have read : (eight.extract2Words (eight.ofHalves (one + eight.base / 2) two)).1
      = int32 (one + eight.base / 2 : Nat) := by
    change int32 (eight.ofHalves (one + eight.base / 2) two / eight.base : Nat) = _
    rw [ofHalves_div (Nat.lt_of_lt_of_le twoFits (by decide))]
  have half : eight.base / 2 = 2 ^ 31 := by decide
  have negative : int32 (one + 2 ^ 31 : Nat) = one - 2 ^ 31 := by
    unfold int32
    omega
  unfold lockExtractCounter
  rw [read, half]
  exact (if_pos (by omega)).trans (by omega)

/-- In a word of four bytes the inform bit is read as a part of the count. -/
theorem lockExtractCounter_four (oneFits : one < 2 ^ 15) (twoFits : two < 2 ^ 16) :
    four.lockExtractCounter (four.ofHalves (one + four.base / 2) two) = one + 2 ^ 15 := by
  have half : four.base / 2 = 2 ^ 15 := by decide
  rw [lockExtractCounter_eq (by change _ < 2 ^ 16; omega) twoFits]
  omega

theorem lockExtractPeNext_eq (twoFits : two < size.room) :
    size.lockExtractPeNext (size.ofHalves one two) = two - 1 := by
  unfold lockExtractPeNext
  rw [extract2Words_snd twoFits]
  exact if_pos (by omega)

theorem lockExtractPeLast_eq (oneFits : one < size.room) (twoFits : two < size.room) :
    size.lockExtractPeLast (size.ofHalves one two) = one - 1 := by
  unfold lockExtractPeLast
  rw [extract2Words_fst oneFits twoFits]
  exact if_pos (by omega)

theorem packFirstWord_eq {first : Nat} (firstFits : first < size.room) (twoFits : two < size.room) :
    size.packFirstWord first (size.ofHalves one two) = size.ofHalves first two := by
  have := size.room_le_base
  unfold packFirstWord
  rw [extract2Words_snd twoFits, pack2Words_eq (by omega) (by omega)]

theorem packSecondWord_zero (oneFits : one < size.room) (twoFits : two < size.room) :
    size.packSecondWord 0 (size.ofHalves one two) = size.ofHalves one 0 := by
  have := size.room_le_base
  unfold packSecondWord
  have packed : size.pack2Words one (0 : Nat) = _ := pack2Words_eq (by omega) base_pos
  rw [extract2Words_fst oneFits twoFits]
  exact packed

theorem lockPackPeNextPeLast_eq (fits : pe + 1 < size.base) :
    size.lockPackPeNextPeLast (-1) pe = size.ofHalves (pe + 1) 0 := by
  have packed : size.pack2Words (pe + 1 : Nat) (0 : Nat) = _ := pack2Words_eq fits base_pos
  exact packed

theorem lockPackPeLast_eq (peFits : pe + 1 < size.room) (twoFits : two < size.room) :
    size.lockPackPeLast pe (size.ofHalves one two) = some (size.ofHalves (pe + 1) two) := by
  have := size.room_le_base
  have packed : size.pack2Words (pe + 1 : Nat) (0 : Nat) = size.ofHalves (pe + 1) 0 :=
    pack2Words_eq (by omega) base_pos
  push_cast at packed
  have joined : two ||| size.ofHalves (pe + 1) 0 = size.ofHalves (pe + 1) two :=
    lor_ofHalves (by omega)
  unfold lockPackPeLast
  rw [ofHalves_mod (by omega), packed, joined]
  exact if_pos (extract2Words_fst peFits twoFits)

theorem fadd_eq (oneFits : one < size.base) (fits : two + pe < size.base) :
    size.fadd (size.ofHalves one two) pe = size.ofHalves one (two + pe) := by
  have sum : size.ofHalves one two + pe = size.ofHalves one (two + pe) := Nat.add_assoc ..
  unfold fadd cut
  rw [sum, Nat.mod_eq_of_lt (ofHalves_lt oneFits fits)]

/-- The inform bit is the top bit of the first half. -/
theorem informBit_eq : size.informBit = size.base / 2 * size.base := by cases size <;> decide

theorem informed_eq (oneFits : one < size.base) (twoFits : two < size.base) :
    size.informed (size.ofHalves one two) = decide (size.base / 2 ≤ one) := by
  have halved : size.ofHalves one two / size.informBit = one / (size.base / 2) := by
    rw [informBit_eq, Nat.mul_comm, ← Nat.div_div_eq_div_mul, ofHalves_div twoFits]
  have positive : 0 < size.base / 2 := by cases size <;> decide
  unfold informed
  rw [halved, decide_eq_decide, Ne, Nat.div_eq_zero_iff]
  omega

theorem inform_eq (notYet : one < size.base / 2) (twoFits : two < size.base) :
    size.inform (size.ofHalves one two) = size.ofHalves (one + size.base / 2) two := by
  -- The word is below its top bit, so setting the bit adds it.
  have bit : size.informBit = 1 <<< (2 * size.half - 1) := by cases size <;> decide
  have below : size.ofHalves one two < 2 ^ (2 * size.half - 1) := by
    have : size.base / 2 * size.base = 2 ^ (2 * size.half - 1) := by cases size <;> decide
    have := Nat.mul_le_mul_right size.base (Nat.succ_le_of_lt notYet)
    unfold ofHalves
    rw [Nat.succ_mul] at this
    omega
  have sum := Nat.shiftLeft_add_eq_or_of_lt below 1
  unfold inform
  rw [bit, Nat.lor_comm, ← sum, ← bit, informBit_eq]
  unfold ofHalves
  rw [Nat.add_mul]
  omega

end LockSize

end EduMpi.Shmem
