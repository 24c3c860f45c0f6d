import EduMpi.Lib.Ints
import EduMpi.Lib.Run
import EduMpi.Lib.Slots
import EduMpi.Lib.Words

/-! The growing array of pointers with its bitmap of used slots. -/

namespace EduMpi.Opal

open Ints Slots Words

/-- The result codes of the array. -/
inductive ArrayRc where
  | success | error | errBadParam | errOutOfResource
deriving DecidableEq, Repr

/-- An array of pointers; a slot without a pointer holds the null pointer. -/
structure PointerArray (α : Type) where
  lowestFree : Int
  numberFree : Int
  size : Int
  maxSize : Int
  blockSize : Int
  /-- The bits of the slots that are used. -/
  freeBits : List (BitVec 64)
  /-- The allocated slots. -/
  addr : List (Option α)
deriving DecidableEq, Repr

namespace PointerArray

variable {α : Type}

/-- The words that hold a number of bits. -/
def elemCount (cap : Int) : Nat := ((cap + 64 - 1) / 64).toNat

/-- A new array; a negative number of slots cannot be allocated. -/
def init (initialAllocation maxSize blockSize : Int) : ArrayRc × Option (PointerArray α) :=
  if maxSize < blockSize then (.errBadParam, none)
  else
    let slots := if 0 < initialAllocation then initialAllocation else blockSize
    if slots < 0 then (.errOutOfResource, none)
    else (.success, some {
      lowestFree := 0
      numberFree := slots
      size := slots
      maxSize := maxSize
      blockSize := if blockSize = 0 then 8 else blockSize
      freeBits := List.replicate (elemCount slots) 0#64
      addr := List.replicate slots.toNat none })

/-- One halving of the search for a zero: ones below the half are skipped. -/
def skipOnes (mask : BitVec 64) (half : Nat) (found : BitVec 64 × Nat) : BitVec 64 × Nat :=
  if found.1 &&& mask = mask then (found.1 >>> half, found.2 + half) else found

/-- The place of the lowest zero of a word that is not all ones. -/
def zeroOf (checkValue : BitVec 64) : Nat :=
  (skipOnes 0x1 1 <| skipOnes 0x3 2 <| skipOnes 0xF 4 <| skipOnes 0xFF 8 <|
    skipOnes 0xFFFF 16 <| skipOnes 0xFFFFFFFF 32 (checkValue, 0)).2

/-- The first word that is not all ones, from the given words and their first index on. -/
def firstWithZero : List (BitVec 64) → Nat → Option (Nat × BitVec 64)
  | [], _ => none
  | word :: rest, index =>
    if word = BitVec.allOnes 64 then firstWithZero rest (index + 1) else some (index, word)

/-- The first free slot from the word of an index on, or the size when there is none. -/
def findFirstZero (table : PointerArray α) (start : Nat) : Option Int := do
  if table.numberFree = 0 then return table.size
  let (index, word) ← firstWithZero (table.freeBits.drop (start / 64)) (start / 64)
  guard ((index : Int) < table.size)
  return index * 64 + zeroOf word

/-- Marks a slot as used; it has to be marked as free. -/
def setBit (table : PointerArray α) (index : Nat) : Option (PointerArray α) := do
  let word ← table.freeBits[index / 64]?
  guard (word &&& 1#64 <<< (index % 64) = 0#64)
  return { table with
    freeBits := table.freeBits.set (index / 64) (word ||| 1#64 <<< (index % 64)) }

/-- Marks a slot as free; it has to be marked as used. -/
def unsetBit (table : PointerArray α) (index : Nat) : Option (PointerArray α) := do
  let word ← table.freeBits[index / 64]?
  guard (word &&& 1#64 <<< (index % 64) ≠ 0#64)
  return { table with
    freeBits := table.freeBits.set (index / 64) (word ^^^ 1#64 <<< (index % 64)) }

/-- The multiple of the block size above an index; an overflowing `int` has no value. -/
def roundUp (table : PointerArray α) (atLeast : Int) : Option Int :=
  if intMax < atLeast + 1 ∨ intMax < atLeast + 1 + table.blockSize then none
  else some (table.blockSize * (atLeast + 1 + table.blockSize - 1).tdiv table.blockSize)

/-- The array at a new size, its slots and words kept as far as they still exist. -/
def resize (table : PointerArray α) (newSize : Int) : PointerArray α :=
  { table with
    numberFree := table.numberFree + (newSize - table.size)
    addr := table.addr.take newSize.toNat ++ List.replicate (newSize - table.size).toNat none
    freeBits := table.freeBits.take (elemCount newSize)
      ++ List.replicate (elemCount newSize - elemCount table.size) 0#64
    size := newSize }

/-- `grow_table`, where the reallocation of the slots and that of the bits may fail. The growth is
refused when the slot asked for is not below the limit, or when the size to allocate is negative. -/
def growTableWith (slots bits : Bool) (table : PointerArray α) (atLeast : Int) :
    Option (Bool × PointerArray α) := do
  let rounded ← table.roundUp atLeast
  if table.maxSize ≤ rounded ∧ table.maxSize ≤ atLeast then return (false, table)
  let newSize := min rounded table.maxSize
  if newSize < 0 ∨ !slots then return (false, table)
  -- The words of the bits are only reallocated when their number changes.
  if elemCount table.size ≠ elemCount newSize ∧ !bits then
    return (false, { table with
      numberFree := table.numberFree + (newSize - table.size)
      addr := (table.resize newSize).addr })
  return (true, table.resize newSize)

/-- `grow_table` with the memory it needs. -/
def growTable (table : PointerArray α) (atLeast : Int) : Option (Bool × PointerArray α) :=
  growTableWith true true table atLeast

/-- A pointer is put into a slot that is allocated. -/
def store (table : PointerArray α) (index : Nat) (value : Option α) : Option (PointerArray α) :=
  if index < table.addr.length then some { table with addr := table.addr.set index value }
  else none

/-- The pointer in a slot, null outside the array. -/
def value (table : PointerArray α) (index : Nat) : Option α := held table.addr index

/-- Grows the array if no slot is free. -/
def makeRoom (table : PointerArray α) : Option (Bool × PointerArray α) :=
  if table.numberFree = 0 then table.growTable (table.size + 1) else some (true, table)

/-- Grows the array if it does not have a slot. -/
def makeRoomAt (table : PointerArray α) (index : Nat) : Option (Bool × PointerArray α) :=
  if table.size ≤ index then table.growTable index else some (true, table)

/-- Searches the lowest free slot from the word of a slot on. -/
def refreshLowest (table : PointerArray α) (index : Nat) : Option (PointerArray α) := do
  let lowestFree ← table.findFirstZero index
  return { table with lowestFree := lowestFree }

/-- Puts a pointer into a free slot and marks the slot as used. -/
def occupy (table : PointerArray α) (index : Nat) (ptr : Option α) : Option (PointerArray α) := do
  guard (table.value index).isNone
  let table ← table.store index ptr
  setBit { table with numberFree := table.numberFree - 1 } index

/-- Adds a pointer in the lowest free slot, whose index is returned. -/
def add (table : PointerArray α) (ptr : Option α) :
    Option (Except ArrayRc Nat × PointerArray α) := do
  let (grown, table) ← table.makeRoom
  if !grown then return (.error .errOutOfResource, table)
  guard (0 < table.size)
  guard (0 ≤ table.lowestFree ∧ table.lowestFree < table.size)
  guard (0 < table.numberFree ∧ table.numberFree ≤ table.size)
  let index := table.lowestFree.toNat
  let table ← table.occupy index ptr
  if 0 < table.numberFree then
    let table ← table.refreshLowest index
    return (.ok index, table)
  return (.ok index, { table with lowestFree := table.size })

/-- Brings the counters and the bits up to date before a slot is overwritten. -/
def remark (table : PointerArray α) (index : Nat) (value : Option α) :
    Option (PointerArray α) := do
  match value, table.value index with
  | none, some _ =>
    unsetBit { table with
      lowestFree := if index < table.lowestFree then index else table.lowestFree
      numberFree := table.numberFree + 1 } index
  | none, none => return table
  | some _, none =>
    let table ← setBit { table with numberFree := table.numberFree - 1 } index
    if index = table.lowestFree then table.refreshLowest index else return table
  | some _, some _ =>
    guard (index ≠ table.lowestFree)
    return table

/-- Overwrites a slot; the null pointer frees it. -/
def setItem (table : PointerArray α) (index : Int) (value : Option α) :
    Option (ArrayRc × PointerArray α) := do
  if index < 0 then return (.error, table)
  let (grown, table) ← table.makeRoomAt index.toNat
  if !grown then return (.error, table)
  guard (index < table.size)
  let table ← table.remark index.toNat value
  let table ← table.store index.toNat value
  return (.success, table)

/-- Puts a pointer into a slot if the slot is free. -/
def testAndSetItem (table : PointerArray α) (index : Int) (value : Option α) :
    Option (Bool × PointerArray α) := do
  guard (0 ≤ index)
  if index < table.size ∧ (table.value index.toNat).isSome then return (false, table)
  let (grown, table) ← table.makeRoomAt index.toNat
  if !grown then return (false, table)
  let table ← table.occupy index.toNat value
  if 0 < table.numberFree then
    if index = table.lowestFree then
      let table ← table.refreshLowest index.toNat
      return (true, table)
    return (true, table)
  return (true, { table with lowestFree := table.size })

/-- Grows the array beyond a size. -/
def setSize (table : PointerArray α) (newSize : Int) : Option (ArrayRc × PointerArray α) := do
  if table.size < newSize then
    let (grown, table) ← table.growTable newSize
    return (if grown then .success else .error, table)
  return (.success, table)

/-- Frees every slot of an array that has a used one. -/
def removeAll (table : PointerArray α) : PointerArray α :=
  if table.numberFree = table.size then table
  else { table with
    lowestFree := 0
    numberFree := table.size
    addr := List.replicate table.size.toNat none ++ table.addr.drop table.size.toNat
    freeBits := List.replicate (elemCount table.size) 0#64
      ++ table.freeBits.drop (elemCount table.size) }

/-- The calls that change an array. -/
inductive Action (α : Type) where
  | add (ptr : Option α)
  | setItem (index : Int) (value : Option α)
  | testAndSetItem (index : Int) (value : Option α)
  | setSize (newSize : Int)
  | removeAll

/-- What a call returns. -/
inductive Reply where
  | index (result : Except ArrayRc Nat)
  | rc (rc : ArrayRc)
  | taken (taken : Bool)
  | void

/-- One call with its result. -/
def call (table : PointerArray α) : Action α → Option (Reply × PointerArray α)
  | .add ptr => (table.add ptr).map (Prod.map .index id)
  | .setItem index value => (table.setItem index value).map (Prod.map .rc id)
  | .testAndSetItem index value => (table.testAndSetItem index value).map (Prod.map .taken id)
  | .setSize newSize => (table.setSize newSize).map (Prod.map .rc id)
  | .removeAll => some (.void, table.removeAll)

/-- One call. -/
def step (table : PointerArray α) (action : Action α) : Option (PointerArray α) :=
  (table.call action).map Prod.snd

end PointerArray

end EduMpi.Opal
