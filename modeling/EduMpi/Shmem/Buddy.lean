import EduMpi.Lib.Words
import EduMpi.Opal.HashTable

/-! The buddy allocator of the symmetric heap. -/

namespace EduMpi.Shmem

open Opal
open Function (update)

/-- The result codes of the allocator. -/
inductive ShmemRc where
  | success | error | errBadParam | errOutOfResource
deriving DecidableEq, Repr

section Bits

/-- The place in its long of a bit that is counted in ints. -/
def bitInLong (nr : Nat) : Nat :=
  -- Memory is little-endian: the ints of even numbers are the lower halves of the longs.
  32 * (nr / 32 % 2) + nr % 32

def clearBit (nr : Nat) (addr : List (BitVec 64)) : Option (List (BitVec 64)) := do
  -- There is no long behind the end of the array.
  let long ← addr[nr / 32 / 2]?
  return addr.set (nr / 32 / 2) (long &&& ~~~BitVec.twoPow 64 (bitInLong nr))

def setBit (nr : Nat) (addr : List (BitVec 64)) : Option (List (BitVec 64)) := do
  let long ← addr[nr / 32 / 2]?
  return addr.set (nr / 32 / 2) (long ||| BitVec.twoPow 64 (bitInLong nr))

def testBit (nr : Nat) (addr : List (BitVec 64)) : Option Bool := do
  -- The number is an `int` here, and a negative one lies before the array.
  if 2 ^ 31 ≤ nr then none
  let long ← addr[nr / 32 / 2]?
  return long.getLsbD (bitInLong nr)

/-- Skips the lower bits of a word if they are all zero. -/
def ffsStep (found : Nat × BitVec 64) (shift : Nat) : Nat × BitVec 64 :=
  if found.2 &&& (BitVec.twoPow 64 shift - 1#64) = 0#64 then (found.1 + shift, found.2 >>> shift)
  else found

/-- The number of the first bit of a word that is set. -/
def ffs (word : BitVec 64) : Nat := ([32, 16, 8, 4, 2, 1].foldl ffsStep (0, word)).1

/-- The first bit of a long that is set among the bits up to a size. -/
def foundFirst (tmp : BitVec 64) (size result : Nat) : Nat :=
  let tmp := tmp &&& BitVec.allOnes 64 >>> (64 - size)
  if tmp = 0#64 then result + size else result + ffs tmp

/-- Searches a number of whole longs, and then the rest of the bits. -/
def findInLongs (addr : List (BitVec 64)) : Nat → Nat → Nat → Nat → Option Nat
  | 0, p, result, size => do
    if size = 0 then return result
    let tmp ← addr[p]?
    return foundFirst tmp size result
  | longs + 1, p, result, size => do
    let tmp ← addr[p]?
    if tmp ≠ 0#64 then return result + ffs tmp
    findInLongs addr longs (p + 1) (result + 64) (size - 64)

def findNextBit (addr : List (BitVec 64)) (size offset : Nat) : Option Nat := do
  let p := offset / 64
  let result := offset / 64 * 64
  if size ≤ offset then return size
  let size := size - result
  let offset := offset % 64
  if offset = 0 then findInLongs addr (size / 64) p result size
  else
    -- The bits before the offset are masked out of the first long.
    let tmp ← addr[p]?
    let tmp := tmp &&& BitVec.allOnes 64 <<< offset
    if size < 64 then return foundFirst tmp size result
    if tmp ≠ 0#64 then return result + ffs tmp
    findInLongs addr ((size - 64) / 64) (p + 1) (result + 64) (size - 64)

def findFirstBit (addr : List (BitVec 64)) (size : Nat) : Option Nat := findNextBit addr size 0

def bitsToLongs (nr : Nat) : Nat := (nr + 63) / 64

end Bits

section Orders

/-- How often a number can be halved before it is zero, within a number of turns. -/
def halvings : Nat → Nat → Nat
  | 0, _ => 0
  | turns + 1, size => if size / 2 = 0 then 0 else halvings turns (size / 2) + 1

/-- The order of the smallest block for a size. -/
def findOrder (size : Nat) : Nat :=
  -- A size is not a power of two if it shares a bit with its predecessor.
  (if size &&& (size - 1) ≠ 0 then 1 else 0) + halvings 64 size

/-- How often a number can be halved until it is zero, within a number of turns. -/
def shifts : Nat → Nat → Nat
  | 0, _ => 0
  | turns + 1, val => if 0 < val then shifts turns (val / 2) + 1 else 0

def memheapLog2 (val : Nat) : Nat :=
  let count := (if val &&& (val - 1) ≠ 0 then 1 else 0) + shifts 64 val
  if 0 < count then count - 1 else 0

end Orders

/-- A heap of blocks: the free blocks of each order, and the orders of the blocks in use. -/
structure BuddyHeap where
  maxOrder : Nat
  minOrder : Nat
  symmetricHeap : UInt64
  /-- The free blocks of an order as bits; orders without an array have no longs. -/
  bits : Nat → List (BitVec 64)
  numFree : Nat → Nat
  symmetricHeapHashtable : HashTable UInt64 Nat

namespace BuddyHeap

/-- Sets the bit of a block and counts it. -/
def markFree (heap : BuddyHeap) (order seg : Nat) : Option BuddyHeap := do
  let longs ← setBit seg (heap.bits order)
  return { heap with
    bits := update heap.bits order longs
    numFree := update heap.numFree order ((heap.numFree order + 1) % 2 ^ 32) }

/-- Clears the bit of a block and takes it out of the count. -/
def markUsed (heap : BuddyHeap) (order seg : Nat) : Option BuddyHeap := do
  let longs ← clearBit seg (heap.bits order)
  return { heap with
    bits := update heap.bits order longs
    numFree := update heap.numFree order ((heap.numFree order + (2 ^ 32 - 1)) % 2 ^ 32) }

/-- The first free block among a number of orders. -/
def searchFree (heap : BuddyHeap) : Nat → Nat → Option (Option (Nat × Nat))
  | 0, _ => some none
  | orders + 1, o =>
    if heap.numFree o = 0 then heap.searchFree orders (o + 1)
    else do
      -- Shift counts of 32-bit numbers are taken modulo 32.
      let m := 2 ^ ((heap.maxOrder - o) % 32)
      let seg := (← findFirstBit (heap.bits o) m) % 2 ^ 32
      if seg < m then return some (o, seg) else heap.searchFree orders (o + 1)

/-- Halves a block a number of times; the upper halves become free. -/
def splitTo (order : Nat) : Nat → Nat → BuddyHeap → Option (Nat × BuddyHeap)
  | 0, seg, heap => some (seg, heap)
  | above + 1, seg, heap => do
    let seg := seg * 2 % 2 ^ 32
    let heap ← heap.markFree (order + above) (seg ^^^ 1)
    splitTo order above seg heap

/-- The offset of a block of an order that is taken out of the free blocks, if there is one. -/
def buddyAlloc (heap : BuddyHeap) (order : Nat) : Option (Option Nat × BuddyHeap) := do
  match ← heap.searchFree (heap.maxOrder + 1 - order) order with
  | none => return (none, heap)
  | some (o, seg) =>
    let heap ← heap.markUsed o seg
    let (seg, heap) ← splitTo order (o - order) seg heap
    return (some (seg * 2 ^ (order % 32) % 2 ^ 32), heap)

/-- Joins a block with its buddy as long as the buddy is free, and makes the result free. -/
def mergeUp : Nat → Nat → Nat → BuddyHeap → Option BuddyHeap
  -- Behind the last order there is no array.
  | 0, _, _, _ => none
  | orders + 1, order, seg, heap => do
    if ← testBit (seg ^^^ 1) (heap.bits order) then
      let heap ← heap.markUsed order (seg ^^^ 1)
      mergeUp orders (order + 1) (seg / 2) heap
    else heap.markFree order seg

def buddyFree (heap : BuddyHeap) (seg order : Nat) : Option BuddyHeap :=
  mergeUp (heap.maxOrder + 1 - order) order (seg / 2 ^ (order % 32)) heap

/-- What a call returns, and the pointer it stores. -/
abbrev Result := ShmemRc × Option UInt64

def doAlloc (heap : BuddyHeap) (order : Nat) : Option (Result × BuddyHeap) := do
  let order := if order < heap.minOrder then heap.minOrder else order
  if heap.maxOrder < order then return ((.error, some 0), heap)
  match ← heap.buddyAlloc order with
  | (none, heap) => return ((.error, some 0), heap)
  | (some offset, heap) =>
    -- The order of the block is saved under its address.
    let addr := heap.symmetricHeap + UInt64.ofNat offset
    let (rc, ht) ← heap.symmetricHeapHashtable.setValue UInt64.toNat addr order
    let heap := { heap with symmetricHeapHashtable := ht }
    if rc = .success then return ((.success, some addr), heap)
    else return ((.error, some 0), ← heap.buddyFree offset order)

def alloc (heap : BuddyHeap) (size : UInt64) : Option (Result × BuddyHeap) :=
  heap.doAlloc (findOrder size.toNat)

/-- The order of a block for a size at an alignment. -/
def alignOrder (align size : UInt64) : Nat :=
  let order := findOrder size.toNat
  -- Shift counts of 64-bit numbers are taken modulo 64.
  if 2 ^ (order % 64) < align.toNat then findOrder align.toNat else order

def align (heap : BuddyHeap) (align size : UInt64) : Option (Result × BuddyHeap) :=
  if align = 0 then some ((.error, some 0), heap)
  else if align &&& (align - 1) ≠ 0 then some ((.error, some 0), heap)
  else heap.doAlloc (alignOrder align size)

def free (heap : BuddyHeap) (ptr : UInt64) : Option (ShmemRc × BuddyHeap) := do
  let offset := (ptr - heap.symmetricHeap).toNat % 2 ^ 32
  let (_, found) ← heap.symmetricHeapHashtable.getValue UInt64.toNat ptr
  match found with
  | none => return (.error, heap)
  | some order =>
    let heap ← heap.buddyFree offset (order % 2 ^ 32)
    let (_, ht) ← heap.symmetricHeapHashtable.removeValue UInt64.toNat ptr
    return (.success, { heap with symmetricHeapHashtable := ht })

/-- Allocates the new block of a reallocation, and frees the old one if it is still there. -/
def moveTo (heap : BuddyHeap) (newSize ptr : UInt64) (viaTmp : Bool) :
    Option (Result × BuddyHeap) := do
  match ← heap.alloc newSize with
  | ((.success, buff), heap) =>
    if viaTmp then return ((.success, buff), heap)
    else
      let (_, heap) ← heap.free ptr
      return ((.success, buff), heap)
  | ((rc, _), heap) => return ((rc, some 0), heap)

/-- Reallocates a block; whether a temporary copy can be allocated is up to the system. -/
def realloc (heap : BuddyHeap) (newSize ptr : UInt64) (tmpAllocated : Bool) :
    Option (Result × BuddyHeap) := do
  if ptr = 0 then heap.alloc newSize
  else
    let (_, found) ← heap.symmetricHeapHashtable.getValue UInt64.toNat ptr
    match found with
    | none => return ((.error, some 0), heap)
    | some order =>
      if newSize = 0 then
        let (rc, heap) ← heap.free ptr
        return ((rc, some 0), heap)
      else
        let oldSize := 2 ^ (order % 64)
        if newSize.toNat ≤ oldSize then return ((.success, some ptr), heap)
        else if 2 ^ (heap.maxOrder % 64) < newSize.toNat then
          return ((.errOutOfResource, some 0), heap)
        else if (oldSize + newSize.toNat) % 2 ^ 64 < 2 ^ (heap.maxOrder % 64) then
          heap.moveTo newSize ptr false
        else if tmpAllocated then
          -- The data waits in the temporary buffer while the block is free.
          let (_, heap) ← heap.free ptr
          heap.moveTo newSize ptr true
        else return ((.errOutOfResource, none), heap)

/-- A heap of one free block. -/
def buddyInit (maxOrder minOrder : Nat) (symmetricHeap : UInt64) : Option BuddyHeap := do
  let (_, ht) ← HashTable.init 100
  let bits := fun order =>
    if minOrder ≤ order ∧ order ≤ maxOrder then
      List.replicate (bitsToLongs (2 ^ (maxOrder - order))) 0#64
    else []
  let longs ← setBit 0 (bits maxOrder)
  return {
    maxOrder := maxOrder
    minOrder := minOrder
    symmetricHeap := symmetricHeap
    bits := update bits maxOrder longs
    numFree := update (fun _ => 0) maxOrder 1
    symmetricHeapHashtable := ht }

/-- The smallest order of the heap, for blocks of eight bytes. -/
def memheapBaseMinOrder : Nat := 3

/-- The heap for a number of bytes of the user at an address. -/
def moduleInit (userSize userBaseAddr : UInt64) : Option (ShmemRc × Option BuddyHeap) := do
  if userSize = 0 then return (.errBadParam, none)
  let heap ← buddyInit (memheapLog2 userSize.toNat) memheapBaseMinOrder userBaseAddr
  return (.success, some heap)

end BuddyHeap

/-- The calls of the allocator. -/
inductive BuddyAction where
  | alloc (size : UInt64)
  | align (align size : UInt64)
  | free (ptr : UInt64)
  | realloc (newSize ptr : UInt64) (tmpAllocated : Bool)
deriving DecidableEq, Repr

/-- One call. -/
def BuddyHeap.step (heap : BuddyHeap) : BuddyAction → Option BuddyHeap
  | .alloc size => (heap.alloc size).map Prod.snd
  | .align align size => (heap.align align size).map Prod.snd
  | .free ptr => (heap.free ptr).map Prod.snd
  | .realloc newSize ptr tmpAllocated => (heap.realloc newSize ptr tmpAllocated).map Prod.snd

end EduMpi.Shmem
