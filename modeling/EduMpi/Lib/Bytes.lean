import Mathlib.Tactic.Common
import Mathlib.Tactic.Ring
import Mathlib.Data.Int.ModEq
import Mathlib.Logic.Function.Basic

/-! Big-endian byte strings, and byte memory written through offsets. -/

namespace Bytes

open List

/-- The low bytes of an integer in two's complement, most significant byte first. -/
def bigEndian : Nat → Int → List UInt8
  | 0, _ => []
  | width + 1, value => bigEndian width (value / 256) ++ [UInt8.ofInt value]

/-- The natural number a byte string spells, most significant byte first. -/
def ofBigEndian (bytes : List UInt8) : Nat :=
  bytes.foldl (fun high byte => high * 256 + byte.toNat) 0

/-- The integer a byte string spells in two's complement. -/
def ofBigEndianSigned (bytes : List UInt8) : Int :=
  Int.bmod (ofBigEndian bytes) (256 ^ bytes.length)

@[simp] theorem bigEndian_length (width : Nat) (value : Int) :
    (bigEndian width value).length = width := by
  induction width generalizing value with
  | zero => rfl
  | succ width ih => simp [bigEndian, ih]

/-- Each byte by its position: the value divided by the weight of that position. -/
theorem bigEndian_eq_map (width : Nat) (value : Int) :
    bigEndian width value
      = (List.range width).map fun i => UInt8.ofInt (value / 256 ^ (width - 1 - i)) := by
  induction width generalizing value with
  | zero => rfl
  | succ width ih =>
    rw [bigEndian, ih, range_succ, map_append]
    congr 1
    · apply map_congr_left
      intro i within
      rw [mem_range] at within
      -- One more division by a byte is one more power of the weight.
      rw [Int.ediv_ediv_of_nonneg (by decide), ← pow_succ',
        show width - 1 - i + 1 = width + 1 - 1 - i by omega]
    · simp

theorem ofBigEndian_append_singleton (bytes : List UInt8) (byte : UInt8) :
    ofBigEndian (bytes ++ [byte]) = ofBigEndian bytes * 256 + byte.toNat := by
  simp [ofBigEndian]

private theorem toNat_ofInt (value : Int) : ((UInt8.ofInt value).toNat : Int) = value % 256 := by
  change (((value % 256).toNat % 256 : Nat) : Int) = value % 256
  omega

/-- Reading back what was spelt keeps the value modulo the width. -/
theorem ofBigEndian_bigEndian (width : Nat) (value : Int) :
    (ofBigEndian (bigEndian width value) : Int) = value % 256 ^ width := by
  induction width generalizing value with
  | zero => simp [bigEndian, ofBigEndian]
  | succ width ih =>
    rw [bigEndian, ofBigEndian_append_singleton, Nat.cast_add, Nat.cast_mul, ih, toNat_ofInt]
    -- The remainder modulo a product splits into the quotient's and the low byte.
    have quotient : value / (256 * 256 ^ width) = value / 256 / 256 ^ width :=
      (Int.ediv_ediv_of_nonneg (by decide)).symm
    rw [pow_succ', Int.emod_def value (256 * _), quotient, Int.emod_def (value / 256),
      Int.emod_def value 256]
    ring

/-- A value that the width can hold is read back unchanged. -/
theorem ofBigEndian_bigEndian_of_lt {width value : Nat} (fits : value < 256 ^ width) :
    ofBigEndian (bigEndian width value) = value := by
  have spelt := ofBigEndian_bigEndian width value
  rw [Int.emod_eq_of_lt (by omega) (by exact_mod_cast fits)] at spelt
  exact_mod_cast spelt

/-- A signed value is read back modulo the width, balanced around zero. -/
theorem ofBigEndianSigned_bigEndian (width : Nat) (value : Int) :
    ofBigEndianSigned (bigEndian width value) = Int.bmod value (256 ^ width) := by
  rw [ofBigEndianSigned, ofBigEndian_bigEndian, bigEndian_length]
  exact_mod_cast Int.emod_bmod (n := 256 ^ width) (x := value)

/-- Byte memory, total in the address. -/
abbrev Memory := Nat → UInt8

/-- One byte stored at an address. -/
def Memory.assign (memory : Memory) (address : Nat) (byte : UInt8) : Memory :=
  Function.update memory address byte

/-- A byte string stored at consecutive addresses. -/
def Memory.store (memory : Memory) (address : Nat) (bytes : List UInt8) : Memory :=
  fun i => if address ≤ i then bytes[i - address]?.getD (memory i) else memory i

/-- The bytes held at consecutive addresses. -/
def Memory.read (memory : Memory) (address count : Nat) : List UInt8 :=
  (List.range count).map fun i => memory (address + i)

section

variable (memory : Memory) (address : Nat)

include memory address

@[simp] theorem Memory.store_nil : memory.store address [] = memory := by
  funext i
  simp [Memory.store]

/-- Storing a string is storing its first byte and then the rest one address on. -/
theorem Memory.store_cons (byte : UInt8) (bytes : List UInt8) :
    memory.store address (byte :: bytes)
      = (memory.assign address byte).store (address + 1) bytes := by
  funext i
  simp only [Memory.store, Memory.assign]
  rcases Nat.lt_trichotomy i address with below | rfl | above
  · rw [if_neg (by omega), if_neg (by omega), Function.update_of_ne (by omega)]
  · rw [if_pos (Nat.le_refl i), if_neg (by omega), Nat.sub_self, Function.update_self]
    rfl
  · have next : i - address = (i - (address + 1)) + 1 := by omega
    rw [if_pos (by omega), if_pos (by omega), next, List.getElem?_cons_succ,
      Function.update_of_ne (by omega)]

/-- Two strings stored one behind the other are their concatenation. -/
theorem Memory.store_store (front back : List UInt8) :
    (memory.store address front).store (address + front.length) back
      = memory.store address (front ++ back) := by
  induction front generalizing memory address with
  | nil => simp
  | cons byte rest ih =>
    rw [cons_append, Memory.store_cons, Memory.store_cons, ← ih, length_cons]
    congr 1
    omega

/-- What was stored is read back. -/
theorem Memory.read_store (bytes : List UInt8) :
    (memory.store address bytes).read address bytes.length = bytes := by
  apply ext_getElem
  · simp [Memory.read]
  · intro i inRead inBytes
    simp [Memory.read, Memory.store, inBytes]

end

end Bytes
