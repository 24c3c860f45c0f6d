import EduMpi.Lib.Ints
import EduMpi.Lib.Probing
import EduMpi.Lib.Run

/-! The hash table with open addressing, for keys of one kind. -/

namespace EduMpi.Opal

open Ints Probing Slots

/-- The result codes of the hash table. -/
inductive HashRc where
  | success | error | errNotFound | errOutOfResource
deriving DecidableEq, Repr

/-- A hash table; a slot that is not valid holds no pair. -/
structure HashTable (K V : Type) where
  table : List (Option (K × V))
  capacity : Nat
  size : Nat
  growthTrigger : Nat
  densityNumer : Int
  densityDenom : Int
  growthNumer : Int
  growthDenom : Int
deriving DecidableEq, Repr

namespace HashTable

variable {K V : Type}

/-- A table before its initialisation. -/
def construct : HashTable K V := ⟨[], 0, 0, 0, 0, 0, 0, 0⟩

/-- A number times a ratio in the arithmetic of `size_t`; there is no division by zero. -/
def scale (number : Nat) (numer denom : Int) : Option Nat :=
  if sizeT denom = 0 then none
  else some (number * (sizeT numer).toNat % 2 ^ 64 / (sizeT denom).toNat)

/-- Rounds up to one more than a multiple of 30. -/
def roundCapacityUp (capacity : Nat) : Nat := (capacity + 29) % 2 ^ 64 / 30 * 30 + 1

/-- Slots of 32 bytes can be allocated if their bytes can be counted. -/
def Allocatable (capacity : Nat) : Prop := capacity * 32 < 2 ^ 64

instance (capacity : Nat) : Decidable (Allocatable capacity) := inferInstanceAs (Decidable (_ < _))

def init2 (estimatedMaxSize : Nat) (densityNumer densityDenom growthNumer growthDenom : Int) :
    Option (HashRc × HashTable K V) := do
  let estCapacity ← scale estimatedMaxSize densityDenom densityNumer
  let capacity := roundCapacityUp estCapacity
  if ¬ Allocatable capacity then return (.errOutOfResource, construct)
  let growthTrigger ← scale capacity densityNumer densityDenom
  return (.success, {
    table := List.replicate capacity none
    capacity := capacity
    size := 0
    growthTrigger := growthTrigger
    densityNumer := densityNumer
    densityDenom := densityDenom
    growthNumer := growthNumer
    growthDenom := growthDenom })

/-- A table of the default density of 1/2 and growth of 2/1. -/
def init (tableSize : Nat) : Option (HashRc × HashTable K V) := init2 tableSize 1 2 2 1

def removeAll (ht : HashTable K V) : HashTable K V :=
  { ht with table := List.replicate ht.capacity none, size := 0 }

/-- What a slot holds. -/
def slot (ht : HashTable K V) (index : Nat) : Option (K × V) := held ht.table index

section Keys

variable [DecidableEq K] (hash : K → Nat)

/-- Puts a pair of the old table into the first slot of the new one that is free. -/
def reinsert (capacity : Nat) (table : List (Option (K × V))) (old : Option (K × V)) :
    Option (List (Option (K × V))) :=
  match old with
  | none => some table
  | some pair => do
    let index ← probe capacity (fun j => (held table j).isNone) capacity
      (hash pair.1 % capacity)
    return table.set index (some pair)

/-- Moves all pairs to a larger table. -/
def grow (ht : HashTable K V) : Option (HashRc × HashTable K V) := do
  let newCapacity := roundCapacityUp (← scale ht.capacity ht.growthNumer ht.growthDenom)
  if ¬ Allocatable newCapacity then return (.errOutOfResource, ht)
  let newTable ← ht.table.foldlM (reinsert hash newCapacity) (List.replicate newCapacity none)
  let growthTrigger ← scale newCapacity ht.densityNumer ht.densityDenom
  return (.success, { ht with
    table := newTable
    capacity := newCapacity
    growthTrigger := growthTrigger })

/-- The slot at which the search for a key stops; a full turn without a stop would be repeated
for ever. -/
def search (ht : HashTable K V) (key : K) : Option Nat :=
  probe ht.capacity (stopAt ht.slot key) ht.capacity (hash key % ht.capacity)

def getValue (ht : HashTable K V) (key : K) : Option (HashRc × Option V) := do
  let index ← ht.search hash key
  match ht.slot index with
  | none => return (.errNotFound, none)
  | some (_, value) => return (.success, some value)

def setValue (ht : HashTable K V) (key : K) (value : V) : Option (HashRc × HashTable K V) := do
  let index ← ht.search hash key
  match ht.slot index with
  | none =>
    let inserted := { ht with
      table := ht.table.set index (some (key, value))
      size := ht.size + 1 }
    if inserted.growthTrigger ≤ inserted.size then inserted.grow hash
    else return (.success, inserted)
  | some (held, _) =>
    return (.success, { ht with table := ht.table.set index (some (held, value)) })

/-- Looks at the slots behind a gap and moves back the pairs that were placed behind it, up to the
first empty slot. -/
def rehash (capacity : Nat) : Nat → List (Option (K × V)) → Nat → Option (List (Option (K × V)))
  | 0, _, _ => none
  | left + 1, table, index =>
    let index := if index = capacity then 0 else index
    match held table index with
    | none => some table
    | some pair => do
      let place ← probe capacity (fun j => j = index ∨ held table j = none) capacity
        (hash pair.1 % capacity)
      let table := if place = index then table else (table.set place (some pair)).set index none
      rehash capacity left table (index + 1)

def removeEltAt (ht : HashTable K V) (index : Nat) : Option (HashRc × HashTable K V) := do
  if (ht.slot index).isNone then return (.error, ht)
  let table ← rehash hash ht.capacity ht.capacity (ht.table.set index none) (index + 1)
  return (.success, { ht with table := table, size := ht.size - 1 })

def removeValue (ht : HashTable K V) (key : K) : Option (HashRc × HashTable K V) := do
  let index ← ht.search hash key
  match ht.slot index with
  | none => return (.errNotFound, ht)
  | some _ => ht.removeEltAt hash index

end Keys

/-- The first valid slot among a number of slots from an index on. -/
def validFrom (ht : HashTable K V) : Nat → Nat → Option Nat
  | 0, _ => none
  | left + 1, index =>
    if (ht.slot index).isSome then some index else ht.validFrom left (index + 1)

/-- The first valid slot behind a slot, or of the table. -/
def getNextElt (ht : HashTable K V) (prev : Option Nat) : Option Nat :=
  let start := match prev with
    | none => 0
    | some index => index + 1
  ht.validFrom (ht.capacity - start) start

/-- The next pair of a traversal with its slot, none at the end. -/
def getNextKey (ht : HashTable K V) (inNode : Option Nat) : Option ((K × V) × Nat) := do
  let node ← ht.getNextElt inNode
  let pair ← ht.slot node
  return (pair, node)

def getFirstKey (ht : HashTable K V) : Option ((K × V) × Nat) := ht.getNextKey none

/-- The pairs that a traversal of a number of turns visits behind a slot. -/
def traverse (ht : HashTable K V) : Nat → Option Nat → List (K × V)
  | 0, _ => []
  | turns + 1, node =>
    match ht.getNextKey node with
    | none => []
    | some (pair, next) => pair :: ht.traverse turns (some next)

end HashTable

/-- The hash of a byte string. -/
def hashKeyPtr (key : List UInt8) : Nat :=
  key.foldl (fun hash byte => (31 * hash + byte.toNat) % 2 ^ 64) 0

/-- The kinds of keys. -/
inductive KeyKind where
  | uint32 | uint64 | ptr
deriving DecidableEq, Repr

/-- The keys of a kind; a pointer key is the byte string it points to. -/
def KeyKind.Key : KeyKind → Type
  | .uint32 => UInt32
  | .uint64 => UInt64
  | .ptr => List UInt8

instance : (kind : KeyKind) → DecidableEq kind.Key
  | .uint32 => inferInstanceAs (DecidableEq UInt32)
  | .uint64 => inferInstanceAs (DecidableEq UInt64)
  | .ptr => inferInstanceAs (DecidableEq (List UInt8))

/-- The hash of a key of a kind. -/
def KeyKind.hashElt : (kind : KeyKind) → kind.Key → Nat
  | .uint32, key => UInt32.toNat key
  | .uint64, key => UInt64.toNat key
  | .ptr, key => hashKeyPtr key

/-- A hash table, and the map its calls put together. -/
structure HashState (K V : Type) where
  ht : HashTable K V
  live : K → Option V

/-- The calls that change a table. -/
inductive HashAction (K V : Type) where
  | setValue (key : K) (value : V)
  | removeValue (key : K)
  | removeAll

/-- One call. -/
def HashState.step {K V : Type} [DecidableEq K] (hash : K → Nat) (s : HashState K V) :
    HashAction K V → Option (HashState K V)
  | .setValue key value => do
    let (_, ht) ← s.ht.setValue hash key value
    return ⟨ht, Function.update s.live key (some value)⟩
  | .removeValue key => do
    let (_, ht) ← s.ht.removeValue hash key
    return ⟨ht, Function.update s.live key none⟩
  | .removeAll => some ⟨s.ht.removeAll, fun _ => none⟩

end EduMpi.Opal
