import EduMpi.Lib.Ints
import EduMpi.Lib.Run
import EduMpi.Lib.Words

/-! The growing bitmap: sets of bit numbers in 64-bit words, up to a limit. -/

namespace EduMpi.Opal

open Ints Words

/-- The result codes of the bitmap. -/
inductive BitmapRc where
  | success | errBadParam
deriving DecidableEq, Repr

/-- A bitmap; a call that leaves the words allocated for it has no result. -/
structure Bitmap where
  /-- The allocated words, none before the first initialisation. -/
  bitmap : Option (List (BitVec 64))
  arraySize : Nat
  maxSize : Int
deriving DecidableEq, Repr

namespace Bitmap

/-- The words that may be accessed. -/
def words (bm : Bitmap) : List (BitVec 64) := bm.bitmap.getD []

/-- The words needed for a number of bits, in the arithmetic of `size_t`. -/
def wordsFor (size : Int) : Int := sizeT (sizeT size + 64 - 1) / 64

/-- A bitmap before its initialisation. -/
def construct : Bitmap := ⟨none, 0, intMax⟩

/-- Sets the limit; what is stored is a number of words. -/
def setMaxSize (bm : Bitmap) (maxSize : Int) : Bitmap :=
  { bm with maxSize := int32 (wordsFor maxSize) }

/-- A run of words set to one value, as far as they are allocated. -/
def fill (bm : Bitmap) (value : BitVec 64) : Option Bitmap :=
  if bm.words.length < bm.arraySize then none
  else some { bm with
    bitmap := some (List.replicate bm.arraySize value ++ bm.words.drop bm.arraySize) }

def clearAllBits (bm : Bitmap) : Option Bitmap := bm.fill 0#64

def setAllBits (bm : Bitmap) : Option Bitmap := bm.fill (BitVec.allOnes 64)

/-- Allocates the words for a number of bits and clears them. -/
def init (bm : Bitmap) (size : Int) : Option (BitmapRc × Bitmap) :=
  if size ≤ 0 ∨ bm.maxSize < size then some (.errBadParam, bm)
  else
    let arraySize := (wordsFor size).toNat
    -- Only a second initialisation raises the limit.
    let maxSize : Int :=
      if bm.bitmap.isSome ∧ bm.maxSize < arraySize then arraySize else bm.maxSize
    let fresh : Bitmap := ⟨some (List.replicate arraySize 0#64), arraySize, maxSize⟩
    fresh.clearAllBits.map (.success, ·)

/-- One word is stored. -/
def store (bm : Bitmap) (index : Nat) (word : BitVec 64) : Bitmap :=
  { bm with bitmap := some (bm.words.set index word) }

/-- Allocates more words, up to the one needed and to the limit. -/
def grow (bm : Bitmap) (index : Nat) : Option Bitmap :=
  let newSize := if bm.maxSize < index + 1 then bm.maxSize.toNat else index + 1
  -- A smaller size would clear a negative number of words.
  if newSize < bm.arraySize then none
  else some { bm with
    bitmap := some (bm.words.take newSize ++ List.replicate (newSize - bm.arraySize) 0#64)
    arraySize := newSize }

/-- The bitmap, with more words if it does not have the one needed. -/
def expand (bm : Bitmap) (index : Nat) : Option Bitmap :=
  if bm.arraySize ≤ index then bm.grow index else some bm

def setBit (bm : Bitmap) (bit : Int) : Option (BitmapRc × Bitmap) := do
  if bit < 0 ∨ bm.maxSize < bit then return (.errBadParam, bm)
  let index := (bit / 64).toNat
  let offset := (bit % 64).toNat
  let bm ← bm.expand index
  let word ← bm.words[index]?
  return (.success, bm.store index (word ||| 1#64 <<< offset))

def clearBit (bm : Bitmap) (bit : Int) : Option (BitmapRc × Bitmap) := do
  if bit < 0 ∨ int32 (bm.arraySize * 64) ≤ bit then return (.errBadParam, bm)
  let index := (bit / 64).toNat
  let offset := (bit % 64).toNat
  let word ← bm.words[index]?
  return (.success, bm.store index (word &&& ~~~(1#64 <<< offset)))

def isSetBit (bm : Bitmap) (bit : Int) : Option Bool := do
  if bit < 0 ∨ int32 (bm.arraySize * 64) ≤ bit then return false
  let index := (bit / 64).toNat
  let offset := (bit % 64).toNat
  let word ← bm.words[index]?
  return word &&& 1#64 <<< offset ≠ 0#64

/-- The first word from an index on that is not all ones, or the number of words. -/
def firstUnfilled (bm : Bitmap) (i : Nat) : Option Nat :=
  if i < bm.arraySize then
    match bm.words[i]? with
    | none => none
    | some word => if word = BitVec.allOnes 64 then bm.firstUnfilled (i + 1) else some i
  else some i
termination_by bm.arraySize - i

/-- The position of the lowest one of a word; of a zero word the loop never ends. -/
def positionOf (temp : BitVec 64) : Option Nat :=
  if temp = 0#64 then none
  else if temp &&& 1#64 ≠ 0#64 then some 0
  else (positionOf (temp >>> 1)).map (· + 1)
termination_by temp.toNat
decreasing_by
  have positive : temp.toNat ≠ 0 := by bv_omega
  rw [BitVec.toNat_ushiftRight, Nat.shiftRight_one]
  omega

/-- Sets the lowest clear bit; the position is returned with the result code. -/
def findAndSetFirstUnsetBit (bm : Bitmap) : Option (BitmapRc × Int × Bitmap) := do
  let i ← bm.firstUnfilled 0
  if i = bm.arraySize then
    let position := int32 (bm.arraySize * 64)
    let (rc, bm) ← bm.setBit position
    return (rc, position, bm)
  let word ← bm.words[i]?
  let temp := word ^^^ (word ||| (word + 1#64))
  let position ← positionOf temp
  return (.success, position + i * 64, bm.store i (word ||| (word + 1#64)))

/-- Counts the ones of a word, clearing the lowest one each time. -/
def onesOf (val : BitVec 64) : Nat :=
  if val = 0#64 then 0 else onesOf (val &&& (val - 1#64)) + 1
termination_by val.toNat
decreasing_by
  have positive : val.toNat ≠ 0 := by bv_omega
  have less : (val - 1#64).toNat = val.toNat - 1 := by bv_omega
  rw [BitVec.toNat_and, less]
  exact Nat.lt_of_le_of_lt Nat.and_le_right (by omega)

/-- The ones of the first words. -/
def onesOfWords (bm : Bitmap) : Nat → Option Nat
  | 0 => some 0
  | n + 1 => do
    let cnt ← bm.onesOfWords n
    let word ← bm.words[n]?
    return cnt + onesOf word

/-- The number of ones below a length; a debug build checks the length. -/
def numSetBits (debug : Bool) (bm : Bitmap) (len : Int) : Option Nat := do
  if debug ∧ (len < 0 ∨ int32 (bm.arraySize * 64) < len) then return 0
  let numElements := (len.tdiv 64).toNat
  let remainingBits := len.tmod 64
  let cnt ← bm.onesOfWords numElements
  if 0 < remainingBits then
    let word ← bm.words[numElements]?
    return cnt + onesOf (word &&& (1#64 <<< remainingBits.toNat - 1#64))
  return cnt

end Bitmap

/-- A bitmap, and the set of bit numbers its calls put together. -/
structure BitmapState where
  bm : Bitmap
  live : Finset Nat

/-- The calls that change a bitmap. -/
inductive BitmapAction where
  | setBit (bit : Int)
  | clearBit (bit : Int)
  | setAllBits
  | clearAllBits
  | findAndSetFirstUnsetBit
deriving DecidableEq, Repr

/-- One call; the set follows the result codes that the caller sees. -/
def BitmapState.step (s : BitmapState) : BitmapAction → Option BitmapState
  | .setBit bit => do
    let (rc, bm) ← s.bm.setBit bit
    return ⟨bm, if rc = .success then insert bit.toNat s.live else s.live⟩
  | .clearBit bit => do
    let (_, bm) ← s.bm.clearBit bit
    return ⟨bm, if 0 ≤ bit then s.live.erase bit.toNat else s.live⟩
  | .setAllBits => do
    let bm ← s.bm.setAllBits
    return ⟨bm, Finset.range (64 * s.bm.arraySize)⟩
  | .clearAllBits => do
    let bm ← s.bm.clearAllBits
    return ⟨bm, ∅⟩
  | .findAndSetFirstUnsetBit => do
    let (rc, position, bm) ← s.bm.findAndSetFirstUnsetBit
    return ⟨bm, if rc = .success then insert position.toNat s.live else s.live⟩

/-- The limit in bits: the one that was set, or the largest `int`. -/
def limitBits (limit : Option Int) : Int := limit.getD intMax

/-- A constructed bitmap whose limit may have been set. -/
def Bitmap.limited : Option Int → Bitmap
  | none => construct
  | some bits => construct.setMaxSize bits

/-- A new bitmap of a number of bits, possibly limited before; none when the size is refused. -/
def BitmapState.start (limit : Option Int) (size : Int) : Option BitmapState :=
  match (Bitmap.limited limit).init size with
  | some (.success, bm) => some ⟨bm, ∅⟩
  | _ => none

end EduMpi.Opal
