import EduMpi.Opal.HashTable
import Mathlib.Data.List.Nodup
import Mathlib.Data.List.Perm.Subperm

/-! The hash table stores the map its calls put together. -/

namespace EduMpi.Opal

open Ints Probing Slots List Option
open Function (update update_eq_self update_of_ne update_self)
open Option (isSome)

namespace HashTable

variable {K V : Type} {hash : K → Nat} {ht : HashTable K V} {capacity : Nat}
  {table : List (Option (K × V))}

/-- A density below one and a growth above one, both of positive numbers. -/
structure ValidRatios (densityNumer densityDenom growthNumer growthDenom : Int) : Prop where
  densityPos : 0 < densityNumer
  density : densityNumer < densityDenom
  densityFits : densityDenom ≤ intMax
  growthPos : 0 < growthDenom
  growth : growthDenom < growthNumer
  growthFits : growthNumer ≤ intMax

/-- The slots hold a table of a capacity with all keys well placed. -/
structure Placed (hash : K → Nat) (capacity : Nat) (table : List (Option (K × V))) : Prop where
  length : table.length = capacity
  placed : WellPlaced capacity (fun k => hash k % capacity) (held table)

/-- A table that is in order and has room. -/
structure Inv (hash : K → Nat) (ht : HashTable K V) : Prop extends
    Placed hash ht.capacity ht.table where
  size : ht.size = ht.table.countP isSome
  room : ht.size < ht.capacity
  trigger : ht.growthTrigger
    = ht.capacity * ht.densityNumer.toNat % 2 ^ 64 / ht.densityDenom.toNat
  ratios : ValidRatios ht.densityNumer ht.densityDenom ht.growthNumer ht.growthDenom

/-- A table holds exactly the pairs of a map. -/
structure Represents (hash : K → Nat) (ht : HashTable K V) (live : K → Option V) : Prop extends
    Inv hash ht where
  pairs : Stores ht.slot live

theorem scale_eq (number : Nat) {numer denom : Int} (numerPos : 0 < numer)
    (numerFits : numer ≤ intMax) (denomPos : 0 < denom) (denomFits : denom ≤ intMax) :
    scale number numer denom = some (number * numer.toNat % 2 ^ 64 / denom.toNat) := by
  unfold intMax at numerFits denomFits
  unfold scale
  rw [sizeT_of_mem (by omega) (by omega), sizeT_of_mem (by omega) (by omega), if_neg (by omega)]

/-- A ratio below one does not increase a number. -/
theorem scale_le {number : Nat} {numer denom : Nat} (below : numer < denom) :
    number * numer % 2 ^ 64 / denom ≤ number :=
  calc number * numer % 2 ^ 64 / denom
      ≤ number * numer / denom := Nat.div_le_div_right (Nat.mod_le _ _)
    _ ≤ number * denom / denom := Nat.div_le_div_right (Nat.mul_le_mul_left _ (by omega))
    _ = number := Nat.mul_div_cancel _ (by omega)

/-- A table grows before it is full. -/
theorem Inv.trigger_le (inv : Inv hash ht) : ht.growthTrigger ≤ ht.capacity := by
  have density := inv.ratios.density
  have positive := inv.ratios.densityPos
  rw [inv.trigger]
  exact scale_le (by omega)

theorem roundCapacityUp_pos : 0 < roundCapacityUp capacity := Nat.succ_pos _

theorem lt_roundCapacityUp (fits : capacity + 29 < 2 ^ 64) :
    capacity < roundCapacityUp capacity := by
  unfold roundCapacityUp
  omega

section Lookup

variable {live : K → Option V}

theorem Represents.of_held (rep : Represents hash ht live) {r : Nat} {key : K} {v : V}
    (holds : ht.slot r = some (key, v)) : live key = some v :=
  (rep.pairs key v).mpr ⟨r, holds⟩

theorem Represents.of_absent (rep : Represents hash ht live) {key : K}
    (absent : ∀ i v, ht.slot i ≠ some (key, v)) : live key = none := by
  cases found : live key with
  | none => rfl
  | some v =>
    obtain ⟨i, holds⟩ := (rep.pairs key v).mp found
    exact absurd holds (absent i v)

variable [DecidableEq K]

/-- The slot a search ends at, with what is known of it. -/
theorem Inv.search (inv : Inv hash ht) (key : K) :
    ∃ r < ht.table.length, ht.search hash key = some r
      ∧ ((∃ v, ht.slot r = some (key, v)) ∨ ht.slot r = none ∧ ∀ i v, ht.slot i ≠ some (key, v))
      ∧ ∀ p < ht.capacity, dist ht.capacity (hash key % ht.capacity) p
          < dist ht.capacity (hash key % ht.capacity) r → ht.slot p ≠ none := by
  have room := inv.room
  have free : ∃ e < ht.capacity, held ht.table e = none := by
    rw [← inv.length]
    exact exists_free (by rw [inv.length, ← inv.size]; exact room)
  obtain ⟨r, inside, finds, rest⟩ :=
    inv.placed.find (fun k => Nat.mod_lt _ (by omega)) free key
  exact ⟨r, by rw [inv.length]; exact inside, finds, rest⟩

/-- A lookup answers as the map does. -/
theorem Represents.getValue (rep : Represents hash ht live) (key : K) :
    ht.getValue hash key = some (match live key with
      | some v => (.success, some v)
      | none => (.errNotFound, none)) := by
  obtain ⟨r, -, finds, ⟨v, holds⟩ | ⟨free, absent⟩, -⟩ := rep.toInv.search key
  · simp only [HashTable.getValue, finds, bind_eq_bind, bind_some, holds,
      rep.of_held holds]
    rfl
  · simp only [HashTable.getValue, finds, bind_eq_bind, bind_some, free,
      rep.of_absent absent]
    rfl

end Lookup

/-- The keys in a table are different. -/
theorem Placed.nodup_keys (placed : Placed hash capacity table) :
    ((table.filterMap id).map Prod.fst).Nodup :=
  nodup_filterMap fun i j a b heldA heldB same =>
    placed.placed.unique i j a.1 a.2 b.2 heldA (same ▸ heldB)

theorem placed_replicate :
    Placed hash capacity (List.replicate capacity (none : Option (K × V))) where
  length := length_replicate
  placed := by
    refine ⟨fun _ _ => held_replicate_none, fun _ _ _ _ _ holds => ?_, fun _ _ _ holds => ?_⟩ <;>
      (rw [held_replicate_none] at holds; cases holds)

theorem stores_replicate :
    Stores (held (List.replicate capacity (none : Option (K × V)))) fun _ => none := by
  refine fun k v => ⟨nofun, ?_⟩
  rintro ⟨i, holds⟩
  rw [held_replicate_none] at holds
  cases holds

/-- Two tables hold the same pairs but for one more. -/
def Adds (before after : List (Option (K × V))) (added : K × V → Prop) : Prop :=
  ∀ pair, (∃ i, held after i = some pair) ↔ (∃ i, held before i = some pair) ∨ added pair

/-- A pair whose key is not in a table with room finds its slot. -/
theorem Placed.reinsert (placed : Placed hash capacity table)
    (room : table.countP isSome < capacity) {pair : K × V}
    (absent : ∀ i v, held table i ≠ some (pair.1, v)) :
    ∃ after, HashTable.reinsert hash capacity table (some pair) = some after
      ∧ Placed hash capacity after ∧ Adds table after (· = pair)
      ∧ after.countP isSome = table.countP isSome + 1 := by
  -- The search ends at a free slot, since there is one.
  obtain ⟨e, inside, free⟩ : ∃ e < table.length, held table e = none :=
    exists_free (by rw [placed.length]; exact room)
  rw [placed.length] at inside
  obtain ⟨r, below, finds, stops, first⟩ := probe_spec (fun j => (held table j).isNone)
    (show hash pair.1 % capacity < capacity from Nat.mod_lt _ (by omega))
    ⟨e, inside, by simp [free]⟩
  have isFree : held table r = none := by simpa using stops
  have inTable : r < table.length := by rw [placed.length]; exact below
  have stored := held_set (v := some pair) inTable
  refine ⟨table.set r (some pair), ?_, ⟨?_, ?_⟩, fun other => ?_, ?_⟩
  · simp only [HashTable.reinsert, finds]
    rfl
  · rw [length_set, placed.length]
  · rw [stored]
    -- Every slot that was passed is filled, which keeps the pair reachable from its home.
    refine placed.placed.insert below isFree absent fun p inP nearer => ?_
    have passes := first p inP nearer
    exact isSome_iff_ne_none.mp (by simpa using passes)
  · rw [stored]
    constructor
    · rintro ⟨i, holds⟩
      rcases holds_update holds with ⟨-, new⟩ | ⟨-, old⟩
      · exact .inr (some.inj new).symm
      · exact .inl ⟨i, old⟩
    · rintro (⟨i, holds⟩ | same)
      · exact ⟨i, by rw [update_of_ne (ne_of_holds isFree holds), holds]⟩
      · exact ⟨r, by rw [update_self, same]⟩
  · have counts := countP_set (v := some pair) (p := isSome) inTable
    simpa [isFree] using counts

/-- All pairs of a list of slots with different keys find their slots. -/
theorem Placed.foldlM_reinsert (old : List (Option (K × V))) (placed : Placed hash capacity table)
    (room : table.countP isSome + old.countP isSome < capacity)
    (distinct : ((old.filterMap id).map Prod.fst).Nodup)
    (absent : ∀ pair ∈ old.filterMap id, ∀ i v, held table i ≠ some (pair.1, v)) :
    ∃ after, old.foldlM (HashTable.reinsert hash capacity) table = some after
      ∧ Placed hash capacity after ∧ Adds table after (· ∈ old.filterMap id)
      ∧ after.countP isSome = table.countP isSome + old.countP isSome := by
  -- By induction on the old slots; the pairs moved so far stand in the new table.
  induction old generalizing table with
  | nil => exact ⟨table, rfl, placed, fun pair => by simp, rfl⟩
  | cons slot rest ih =>
    cases slot with
    | none =>
      obtain ⟨after, folds, facts⟩ := ih placed (by simpa using room) (by simpa using distinct)
        (by simpa using absent)
      refine ⟨after, ?_, by simpa using facts⟩
      exact folds
    | some pair =>
      simp only [filterMap_cons, id_eq, map_cons, nodup_cons] at distinct
      simp only [countP_cons, isSome_some, if_true] at room
      have pairAbsent := absent pair (by simp)
      obtain ⟨stored, inserts, storedPlaced, adds, count⟩ :=
        placed.reinsert (by omega) pairAbsent
      -- The rest is not in the table after the first pair has joined it.
      have restAbsent : ∀ other ∈ rest.filterMap id, ∀ i v, held stored i ≠ some (other.1, v) := by
        intro other member i v holds
        rcases (adds (other.1, v)).mp ⟨i, holds⟩ with ⟨j, before⟩ | same
        · exact absent other (mem_cons_of_mem pair member) j v before
        · exact distinct.1 (mem_map.mpr ⟨other, member, show (other.1, v).1 = _ by rw [same]⟩)
      obtain ⟨after, folds, afterPlaced, addsRest, total⟩ :=
        ih storedPlaced (by omega) distinct.2 restAbsent
      refine ⟨after, ?_, afterPlaced, fun other => ?_, ?_⟩
      · rw [foldlM_cons, inserts]
        exact folds
      · rw [addsRest, adds]
        simp only [filterMap_cons, id_eq, mem_cons]
        tauto
      · simp only [countP_cons, isSome_some, if_true]
        omega

/-- The capacity a table grows to. -/
def grownCapacity (ht : HashTable K V) : Nat :=
  roundCapacityUp (ht.capacity * ht.growthNumer.toNat / ht.growthDenom.toNat)

/-- The new capacity exceeds the old one unless the arithmetic wraps around. -/
theorem lt_grownCapacity
    (ratios : ValidRatios ht.densityNumer ht.densityDenom ht.growthNumer ht.growthDenom)
    (fits : ht.capacity * ht.growthNumer.toNat + 29 < 2 ^ 64) : ht.capacity < ht.grownCapacity := by
  have positive := ratios.growthPos
  have growth := ratios.growth
  have bound := Nat.div_le_self (ht.capacity * ht.growthNumer.toNat) ht.growthDenom.toNat
  refine Nat.lt_of_le_of_lt ?_ (lt_roundCapacityUp (by omega))
  rw [Nat.le_div_iff_mul_le (by omega)]
  exact Nat.mul_le_mul_left _ (by omega)

structure SameRatios (before after : HashTable K V) : Prop where
  growthNumer : after.growthNumer = before.growthNumer
  growthDenom : after.growthDenom = before.growthDenom
  densityNumer : after.densityNumer = before.densityNumer
  densityDenom : after.densityDenom = before.densityDenom

/-- A growth that stays inside `size_t` and can be allocated. -/
def Growable (ht : HashTable K V) : Prop :=
  ht.capacity * ht.growthNumer.toNat + 29 < 2 ^ 64
    ∧ Allocatable (roundCapacityUp (ht.capacity * ht.growthNumer.toNat / ht.growthDenom.toNat))

instance (ht : HashTable K V) : Decidable ht.Growable := inferInstanceAs (Decidable (_ ∧ _))

/-- A growth keeps the pairs, whether or not the table was full. -/
theorem Placed.grow (ht : HashTable K V) (placed : Placed hash ht.capacity ht.table)
    (size : ht.size = ht.table.countP isSome)
    (ratios : ValidRatios ht.densityNumer ht.densityDenom ht.growthNumer ht.growthDenom)
    (growable : ht.Growable) :
    ∃ after, ht.grow hash = some (.success, after) ∧ Inv hash after
      ∧ (∀ pair, (∃ i, after.slot i = some pair) ↔ ∃ i, ht.slot i = some pair)
      ∧ SameRatios ht after ∧ after.capacity = ht.grownCapacity := by
  obtain ⟨fits, allocatable⟩ := growable
  change Allocatable ht.grownCapacity at allocatable
  have larger := lt_grownCapacity ratios fits
  obtain ⟨densityPos, density, densityFits, growthPos, growth, growthFits⟩ := ratios
  have scaled := scale_eq ht.capacity (by omega) growthFits growthPos
    (show ht.growthDenom ≤ intMax by omega)
  rw [Nat.mod_eq_of_lt (by omega)] at scaled
  have trigger := scale_eq ht.grownCapacity densityPos
    (show ht.densityNumer ≤ intMax by omega) (by omega) densityFits
  -- An empty table of the new capacity takes all the pairs.
  have empty : Placed hash ht.grownCapacity
      (List.replicate ht.grownCapacity (none : Option (K × V))) := placed_replicate
  simp only [HashTable.grow, scaled, bind_eq_bind, bind_some]
  rw [← grownCapacity]
  -- The pairs are fewer than the old slots, and these fewer than the new ones.
  have counted : ht.table.countP isSome ≤ ht.capacity := by
    rw [← placed.length]
    exact countP_le_length
  have noneYet : (List.replicate ht.grownCapacity (none : Option (K × V))).countP isSome = 0 :=
    countP_replicate_none
  obtain ⟨newTable, folds, newPlaced, adds, count⟩ := empty.foldlM_reinsert ht.table
    (by omega) placed.nodup_keys (fun _ _ i v holds => by rw [held_replicate_none] at holds; cases holds)
  refine ⟨{ ht with
      table := newTable
      capacity := ht.grownCapacity
      growthTrigger := ht.grownCapacity * ht.densityNumer.toNat % 2 ^ 64 / ht.densityDenom.toNat },
    ?_, ⟨newPlaced, ?_, ?_, rfl, ⟨densityPos, density, densityFits, growthPos, growth, growthFits⟩⟩,
    fun pair => ?_, ⟨rfl, rfl, rfl, rfl⟩, rfl⟩
  · rw [if_neg (not_not.mpr allocatable), folds, trigger]
    rfl
  · rw [size, count, noneYet, Nat.zero_add]
  · simp only
    omega
  · rw [show (∃ i, ht.slot i = some pair) ↔ pair ∈ ht.table.filterMap id from
      Slots.mem_filterMap.symm]
    refine (adds pair).trans ⟨fun either => ?_, .inr⟩
    rcases either with ⟨i, holds⟩ | member
    · rw [held_replicate_none] at holds
      cases holds
    · exact member

/-- From a gap on, pairs are moved back until an empty slot is found; no pair is lost. -/
theorem rehash_spec {gap current empty : Nat} (index left : Nat)
    (gapped : Gap capacity (fun k => hash k % capacity) (held table) gap current)
    (length : table.length = capacity) (here : (if index = capacity then 0 else index) = current)
    (inside : empty < capacity) (free : held table empty = none) (other : empty ≠ gap)
    (ahead : dist capacity gap current ≤ dist capacity gap empty)
    (near : dist capacity current empty < left) :
    ∃ after, rehash hash capacity left table index = some after ∧ Placed hash capacity after
      ∧ (∀ pair, (∃ i, held after i = some pair) ↔ ∃ i, held table i = some pair)
      ∧ after.countP isSome = table.countP isSome := by
  have gap_lt := gapped.gap_lt
  have current_lt := gapped.current_lt
  have homes (k : K) : hash k % capacity < capacity := Nat.mod_lt _ (by omega)
  -- The empty slot comes one slot nearer in every turn.
  induction left generalizing table gap current index with
  | zero => omega
  | succ left ih =>
    simp only [rehash, here]
    cases holds : held table current with
    | none => exact ⟨table, rfl, ⟨length, gapped.close holds⟩, fun _ => Iff.rfl, rfl⟩
    | some pair =>
      obtain ⟨key, v⟩ := pair
      have notEmpty := (ne_of_holds free holds).symm
      have ahead' : dist capacity gap current < dist capacity gap empty :=
        Nat.lt_of_le_of_ne ahead fun same =>
          notEmpty ((dist_inj gap_lt current_lt inside).mp same).symm
      have nearer := dist_from_next current_lt inside notEmpty
      have more := next_ne_of_dist_lt gap_lt inside ahead'
      simp only [gapped.place homes holds, bind_eq_bind, bind_some]
      by_cases onWay : dist capacity (hash key % capacity) gap
          < dist capacity (hash key % capacity) current
      · -- The pair's home is not behind the gap: it moves there, and leaves the next gap.
        rw [if_pos onWay, if_neg (Ne.symm gapped.other)]
        have moreSlots : next capacity current ≠ current := by
          refine next_ne_of_dist_lt current_lt inside ?_
          rw [dist_self]
          omega
        have moved := gapped.move holds onWay moreSlots
        obtain ⟨stored, pairs, count⟩ :=
          held_swap (length ▸ gap_lt) (length ▸ current_lt) gapped.other gapped.free holds
        rw [← stored] at moved
        have stillFree : held ((table.set gap (some (key, v))).set current none) empty = none := by
          rw [stored, update_of_ne notEmpty, update_of_ne other, free]
        obtain ⟨after, rehashes, placed, samePairs, sameCount⟩ := ih (current + 1) moved
          (by simpa using length) rfl stillFree notEmpty
          (by rw [dist_next current_lt moreSlots, dist_self]; omega)
          (by omega) current_lt moved.current_lt
        exact ⟨after, rehashes, placed, fun pair => (samePairs pair).trans (pairs pair),
          sameCount.trans count⟩
      · -- The pair stays where it is, since it can still be reached.
        rw [if_neg onWay, if_pos rfl]
        have kept := gapped.keep holds onWay more
        exact ih (current + 1) kept length rfl free other
          (by rw [dist_next gap_lt more]; omega) (by omega) gap_lt kept.current_lt

section Update

variable [DecidableEq K] {live : K → Option V}

/-- What is put into the slot where the search for a key ended is the value of the key. -/
theorem Represents.stores_set (rep : Represents hash ht live) {key : K} {r : Nat}
    (inside : r < ht.table.length) (found : (∃ v, ht.slot r = some (key, v))
      ∨ ht.slot r = none ∧ ∀ i v, ht.slot i ≠ some (key, v)) (new : Option V) :
    Stores (held (ht.table.set r (new.map (key, ·)))) (update live key new) := by
  rw [held_set inside]
  rcases found with ⟨old, holds⟩ | ⟨free, absent⟩
  · exact rep.pairs.set new (fun i v here => rep.placed.unique i r key v old here holds)
      fun k v here => by rw [holds] at here; cases here; rfl
  · exact rep.pairs.set new (fun i v here => absurd here (absent i v))
      fun k v here => by rw [free] at here; cases here

/-- A call keeps the ratios of a table, and its capacity unless the table has grown. -/
structure Follows (before after : HashTable K V) : Prop extends SameRatios before after where
  capacity : after.capacity = before.capacity
    ∨ before.growthTrigger ≤ before.size + 1 ∧ before.Growable
      ∧ after.capacity = before.grownCapacity

/-- A new key is in the table behind its insertion, and the table grows at its trigger. -/
theorem Represents.setValue (rep : Represents hash ht live) (key : K) (value : V)
    (growable : live key = none → ht.growthTrigger ≤ ht.size + 1 → ht.Growable) :
    ∃ after, ht.setValue hash key value = some (.success, after)
      ∧ Represents hash after (update live key (some value)) ∧ Follows ht after := by
  obtain ⟨r, inside, finds, outcome, passed⟩ := rep.toInv.search key
  have stored := held_set (v := some (key, value)) inside
  have pairs := rep.stores_set inside outcome (some value)
  have counts := countP_set (v := some (key, value)) (p := isSome) inside
  have length := rep.length
  have size := rep.size
  unfold HashTable.setValue
  simp only [finds, bind_eq_bind, bind_some]
  -- An old value is overwritten in place; a new pair needs a free slot and may need growth.
  rcases outcome with ⟨old, holds⟩ | ⟨free, absent⟩
  · have filled : held ht.table r = some (key, old) := holds
    simp only [filled, isSome_some] at counts
    simp only [holds]
    refine ⟨_, rfl, ⟨⟨⟨by rw [length_set]; exact length, ?_⟩, ?_, rep.room, rep.trigger,
      rep.ratios⟩, ?_⟩, ⟨rfl, rfl, rfl, rfl⟩, .inl rfl⟩
    · simp only [stored]
      exact rep.placed.replace holds
    · simp only
      omega
    · exact pairs
  · have empty : held ht.table r = none := free
    simp only [empty, isSome_none, isSome_some, Bool.false_eq_true, if_true, if_false] at counts
    have placed : Placed hash ht.capacity (ht.table.set r (some (key, value))) := by
      refine ⟨by rw [length_set]; exact length, ?_⟩
      rw [stored]
      exact rep.placed.insert (by rw [← length]; exact inside) free absent passed
    simp only [free]
    split
    · rename_i reached
      have grown := growable (rep.of_absent absent) reached
      obtain ⟨after, grows, inv, same, ratios, capacity⟩ :=
        Placed.grow { ht with table := ht.table.set r (some (key, value)), size := ht.size + 1 }
          placed (by simp only; omega) rep.ratios grown
      refine ⟨after, grows, ⟨inv, fun k v => ?_⟩,
        { ratios with capacity := .inr ⟨reached, grown, capacity⟩ }⟩
      rw [same]
      exact pairs k v
    · -- Below the trigger one more pair leaves a slot free.
      rename_i below
      have trigger := rep.toInv.trigger_le
      refine ⟨_, rfl, ⟨⟨placed, ?_, ?_, rep.trigger, rep.ratios⟩, pairs⟩, ⟨rfl, rfl, rfl, rfl⟩,
        .inl rfl⟩
      · simp only
        omega
      · simp only at below ⊢
        omega

/-- A key that is in the table can be removed, and one that is not is reported. -/
theorem Represents.removeValue (rep : Represents hash ht live) (key : K) :
    ∃ rc after, ht.removeValue hash key = some (rc, after)
      ∧ Represents hash after (update live key none) ∧ Follows ht after
      ∧ rc = if (live key).isSome then .success else .errNotFound := by
  obtain ⟨r, inside, finds, ⟨old, holds⟩ | ⟨free, absent⟩, -⟩ := rep.toInv.search key
  · have length := rep.length
    have room := rep.room
    have size := rep.size
    have below : r < ht.capacity := by omega
    -- Besides the slot to be emptied there is an empty one, where the rehashing ends.
    obtain ⟨e, insideE, freeE⟩ : ∃ e < ht.table.length, held ht.table e = none :=
      exists_free (by omega)
    have belowE : e < ht.capacity := by omega
    have other := (ne_of_holds freeE holds).symm
    have away : 0 < dist ht.capacity r e :=
      Nat.pos_of_ne_zero fun zero => other ((dist_eq_zero below).mp zero).symm
    have more : next ht.capacity r ≠ r :=
      next_ne_of_dist_lt below belowE (by rw [dist_self]; exact away)
    have emptied := held_set (v := none) inside
    have gapped := rep.placed.remove below more
    rw [← emptied] at gapped
    have stillFree : held (ht.table.set r none) e = none := by
      rw [emptied, update_of_ne other, freeE]
    obtain ⟨after, rehashes, placed, samePairs, sameCount⟩ :=
      rehash_spec (r + 1) ht.capacity gapped (by simpa using length) rfl belowE
        stillFree other (by rw [dist_next below more, dist_self]; omega)
        (dist_lt (next_lt below) belowE)
    have pairs := rep.stores_set inside (.inl ⟨old, holds⟩) none
    have counts := countP_set (v := none) (p := isSome) inside
    rw [show held ht.table r = some (key, old) from holds] at counts
    simp only [isSome_none, isSome_some, Bool.false_eq_true, if_true, if_false] at counts
    refine ⟨.success, { ht with table := after, size := ht.size - 1 }, ?_,
      ⟨⟨placed, ?_, ?_, rep.trigger, rep.ratios⟩, fun k v => ?_⟩,
      ⟨⟨rfl, rfl, rfl, rfl⟩, .inl rfl⟩, ?_⟩
    · simp only [HashTable.removeValue, finds, bind_eq_bind, bind_some, holds,
        removeEltAt, rehashes]
      rfl
    · simp only
      omega
    · simp only
      omega
    · rw [pairs]
      exact (samePairs (k, v)).symm
    · rw [rep.of_held holds]
      rfl
  · -- Nothing is found, and nothing changes.
    have none_live := rep.of_absent absent
    refine ⟨.errNotFound, ht, ?_, ?_, ⟨⟨rfl, rfl, rfl, rfl⟩, .inl rfl⟩, by rw [none_live]; rfl⟩
    · simp only [HashTable.removeValue, finds, bind_eq_bind, bind_some, free]
      rfl
    · rw [← none_live, update_eq_self]
      exact rep

end Update

section Traversal

/-- The next valid slot holds the first of the pairs from an index on. -/
theorem validFrom_spec (ht : HashTable K V) (index left : Nat)
    (all : index + left = ht.table.length) :
    match ht.validFrom left index with
    | none => (ht.table.drop index).filterMap id = []
    | some place => ∃ pair, ht.slot place = some pair ∧ place < ht.table.length
        ∧ (ht.table.drop index).filterMap id
          = pair :: (ht.table.drop (place + 1)).filterMap id := by
  -- By induction on the slots that are left to look at.
  induction left generalizing index with
  | zero =>
    rw [drop_eq_nil_of_le (by omega)]
    rfl
  | succ left ih =>
    have inside : index < ht.table.length := by omega
    rw [validFrom]
    cases holds : ht.slot index with
    | some pair =>
      refine ⟨pair, holds, inside, ?_⟩
      rw [drop_eq_getElem_cons inside, ← held_of_lt inside]
      simp only [show held ht.table index = some pair from holds, filterMap_cons, id_eq]
    | none =>
      have rest := ih (index + 1) (by omega)
      rw [drop_eq_getElem_cons inside, ← held_of_lt inside]
      simp only [show held ht.table index = none from holds, id_eq,
        isSome_none, Bool.false_eq_true, if_false]
      exact rest

/-- Where the search for the next pair starts. -/
def startOf : Option Nat → Nat
  | none => 0
  | some node => node + 1

/-- The next pair of a traversal is the first of the pairs behind its node. -/
theorem getNextKey_spec (length : ht.table.length = ht.capacity) (node : Option Nat)
    (inside : startOf node ≤ ht.capacity) :
    match ht.getNextKey node with
    | none => (ht.table.drop (startOf node)).filterMap id = []
    | some (pair, place) => ht.slot place = some pair ∧ place < ht.capacity
        ∧ (ht.table.drop (startOf node)).filterMap id
          = pair :: (ht.table.drop (place + 1)).filterMap id := by
  have next := validFrom_spec ht (startOf node) (ht.capacity - startOf node) (by omega)
  have elt : ht.getNextElt node = ht.validFrom (ht.capacity - startOf node) (startOf node) := by
    cases node <;> rfl
  unfold getNextKey
  rw [elt]
  cases found : ht.validFrom (ht.capacity - startOf node) (startOf node) with
  | none =>
    rw [found] at next
    exact next
  | some index =>
    rw [found] at next
    obtain ⟨pair, holds, below, rest⟩ := next
    simp only [bind_eq_bind, bind_some, holds]
    exact ⟨holds, by omega, rest⟩

/-- A traversal with enough turns visits all pairs behind its node, in the order of the slots. -/
theorem traverse_eq (length : ht.table.length = ht.capacity) (turns : Nat) (node : Option Nat)
    (inside : startOf node ≤ ht.capacity)
    (enough : ((ht.table.drop (startOf node)).filterMap id).length ≤ turns) :
    ht.traverse turns node = (ht.table.drop (startOf node)).filterMap id := by
  induction turns generalizing node with
  | zero =>
    rw [eq_nil_of_length_eq_zero (Nat.le_zero.mp enough)]
    rfl
  | succ turns ih =>
    have next := getNextKey_spec length node inside
    unfold traverse
    -- Each turn visits one pair, and goes on behind it.
    cases found : ht.getNextKey node with
    | none =>
      rw [found] at next
      rw [next]
    | some visit =>
      obtain ⟨pair, index⟩ := visit
      rw [found] at next
      obtain ⟨-, below, rest⟩ := next
      rw [rest] at enough
      rw [rest]
      exact congrArg (pair :: ·) (ih (some index) (by simp only [startOf]; omega)
        (by simpa only [startOf] using Nat.le_of_succ_le_succ enough))

end Traversal

/-- Clearing a table leaves the empty map. -/
theorem Inv.removeAll (inv : Inv hash ht) : Represents hash ht.removeAll (fun _ => none) where
  toPlaced := placed_replicate
  size := countP_replicate_none.symm
  room := Nat.lt_of_le_of_lt (Nat.zero_le _) inv.room
  trigger := inv.trigger
  ratios := inv.ratios
  pairs := stores_replicate

section Start

variable {densityNumer densityDenom growthNumer growthDenom : Int}
  (ratios : ValidRatios densityNumer densityDenom growthNumer growthDenom)

/-- An empty table of a capacity. -/
def emptyTable (capacity : Nat) (densityNumer densityDenom growthNumer growthDenom : Int) :
    HashTable K V where
  table := List.replicate capacity none
  capacity := capacity
  size := 0
  growthTrigger := capacity * densityNumer.toNat % 2 ^ 64 / densityDenom.toNat
  densityNumer := densityNumer
  densityDenom := densityDenom
  growthNumer := growthNumer
  growthDenom := growthDenom

include ratios in
/-- A new table is empty, or it cannot be allocated. -/
theorem init2_eq (estimatedMaxSize : Nat) :
    (init2 estimatedMaxSize densityNumer densityDenom growthNumer growthDenom
        : Option (HashRc × HashTable K V))
      = some (if Allocatable (roundCapacityUp
            (estimatedMaxSize * densityDenom.toNat % 2 ^ 64 / densityNumer.toNat)) then
          (.success, emptyTable (roundCapacityUp
            (estimatedMaxSize * densityDenom.toNat % 2 ^ 64 / densityNumer.toNat))
            densityNumer densityDenom growthNumer growthDenom)
        else (.errOutOfResource, construct)) := by
  obtain ⟨densityPos, density, densityFits, -, -, -⟩ := ratios
  unfold init2
  rw [scale_eq _ (by omega) densityFits densityPos (by omega)]
  simp only [bind_eq_bind, bind_some]
  split
  · rfl
  · rename_i allocated
    rw [if_pos (not_not.mp allocated), scale_eq _ densityPos (by omega) (by omega) densityFits]
    rfl

include ratios in
theorem represents_emptyTable {capacity : Nat} (positive : 0 < capacity) :
    Represents hash (emptyTable capacity densityNumer densityDenom growthNumer growthDenom
      : HashTable K V) (fun _ => none) :=
  ⟨⟨placed_replicate, countP_replicate_none.symm, positive, rfl, ratios⟩, stores_replicate⟩

include ratios in
/-- A new table holds the empty map. -/
theorem represents_init2 {estimatedMaxSize : Nat}
    (starts : init2 estimatedMaxSize densityNumer densityDenom growthNumer growthDenom
      = some (.success, ht)) : Represents hash ht (fun _ => none) := by
  rw [init2_eq ratios] at starts
  split at starts
  · cases starts
    exact represents_emptyTable ratios roundCapacityUp_pos
  · cases starts

end Start

/-- The size of a table is the number of its pairs. -/
theorem Inv.size_eq_length (inv : Inv hash ht) : ht.size = (ht.table.filterMap id).length := by
  rw [inv.size, length_filterMap_eq_countP]
  rfl

/-- A table is empty exactly if its map is. -/
theorem Represents.size_eq_zero {live : K → Option V} (rep : Represents hash ht live) :
    ht.size = 0 ↔ ∀ key, live key = none := by
  rw [rep.size, countP_eq_zero]
  constructor
  · intro all_free key
    cases found : live key with
    | none => rfl
    | some v =>
      obtain ⟨i, holds⟩ := (rep.pairs key v).mp found
      have inside := lt_of_held holds
      refine absurd ?_ (all_free _ (getElem_mem inside))
      rw [← held_of_lt inside, show held ht.table i = some (key, v) from holds]
      rfl
  · intro none_live slot member filled
    obtain ⟨i, inside, rfl⟩ := getElem_of_mem member
    obtain ⟨pair, holds⟩ := isSome_iff_exists.mp filled
    have found := rep.of_held ((held_of_lt inside).trans holds)
    rw [none_live] at found
    cases found

section Standard

variable {live : K → Option V}

/-- A table of the default ratios whose slots are allocated. -/
structure Standard (ht : HashTable K V) : Prop where
  densityNumer : ht.densityNumer = 1
  densityDenom : ht.densityDenom = 2
  growthNumer : ht.growthNumer = 2
  growthDenom : ht.growthDenom = 1
  allocated : Allocatable ht.capacity

theorem Standard.follows (standard : Standard ht) {after : HashTable K V}
    (follows : Follows ht after) : Standard after where
  densityNumer := follows.densityNumer.trans standard.densityNumer
  densityDenom := follows.densityDenom.trans standard.densityDenom
  growthNumer := follows.growthNumer.trans standard.growthNumer
  growthDenom := follows.growthDenom.trans standard.growthDenom
  allocated := by
    rcases follows.capacity with same | ⟨-, growable, grown⟩
    · rw [same]
      exact standard.allocated
    · rw [grown]
      exact growable.2

/-- A table that is allocated can be doubled in `size_t`. -/
theorem Standard.growable_iff (standard : Standard ht) :
    ht.Growable ↔ Allocatable (roundCapacityUp (ht.capacity * 2)) := by
  have allocated := standard.allocated
  unfold Allocatable at allocated
  unfold Growable
  rw [standard.growthNumer, standard.growthDenom]
  simp only [Int.toNat_one, Nat.div_one, show (2 : Int).toNat = 2 from rfl, and_iff_right_iff_imp]
  omega

/-- A table of few keys can grow when it has to. -/
theorem Standard.growable (standard : Standard ht) (inv : Inv hash ht) (few : ht.size ≤ 2 ^ 40)
    (reached : ht.growthTrigger ≤ ht.size + 1) : ht.Growable := by
  have allocated := standard.allocated
  unfold Allocatable at allocated
  have trigger := inv.trigger
  -- The trigger is half the capacity, so the capacity is small, too.
  rw [standard.densityNumer, standard.densityDenom, Int.toNat_one, Nat.mod_eq_of_lt (by omega),
    show (2 : Int).toNat = 2 from rfl] at trigger
  rw [standard.growable_iff]
  unfold Allocatable roundCapacityUp
  omega

/-- There are at most as many keys as numbers they can be told apart by. -/
theorem Represents.size_le (rep : Represents hash ht live) (number : K → Nat) (bound : Nat)
    (apart : ∀ a b, live a ≠ none → live b ≠ none → number a = number b → a = b)
    (below : ∀ key, live key ≠ none → number key < bound) : ht.size ≤ bound := by
  -- The keys have different numbers below the bound, so they are no more than it.
  have size : ht.size = ((ht.table.filterMap id).map fun pair => number pair.1).length := by
    rw [rep.size_eq_length, length_map]
  have is_live : ∀ i pair, held ht.table i = some pair → live pair.1 ≠ none := by
    intro i pair holds
    rw [rep.of_held (show ht.slot i = some (pair.1, pair.2) from holds)]
    exact some_ne_none _
  have distinct : ((ht.table.filterMap id).map fun pair => number pair.1).Nodup := by
    rw [show (fun pair : K × V => number pair.1) = number ∘ Prod.fst from rfl, ← List.map_map]
    refine List.Nodup.map_on (fun a memberA b memberB => ?_) rep.nodup_keys
    obtain ⟨pairA, listedA, rfl⟩ := mem_map.mp memberA
    obtain ⟨pairB, listedB, rfl⟩ := mem_map.mp memberB
    obtain ⟨i, holdsA⟩ := Slots.mem_filterMap.mp listedA
    obtain ⟨j, holdsB⟩ := Slots.mem_filterMap.mp listedB
    exact apart _ _ (is_live i _ holdsA) (is_live j _ holdsB)
  have inside : ((ht.table.filterMap id).map fun pair => number pair.1) ⊆ List.range bound := by
    intro n member
    obtain ⟨pair, listed, rfl⟩ := mem_map.mp member
    obtain ⟨i, holds⟩ := Slots.mem_filterMap.mp listed
    exact mem_range.mpr (below _ (is_live i _ holds))
  have fewer := (distinct.subperm inside).length_le
  rwa [← size, length_range] at fewer

theorem validRatios_default : ValidRatios 1 2 2 1 :=
  ⟨by decide, by decide, by decide, by decide, by decide, by decide⟩

/-- A new table of the default ratios is empty, or it cannot be allocated. -/
theorem init_spec (hash : K → Nat) (tableSize : Nat) :
    ∃ rc ht, HashTable.init tableSize = some (rc, (ht : HashTable K V))
      ∧ (rc = .success ∨ rc = .errOutOfResource)
      ∧ (rc = .success → Represents hash ht (fun _ => none) ∧ Standard ht) := by
  unfold HashTable.init
  rw [init2_eq validRatios_default]
  split
  · rename_i allocated
    exact ⟨_, _, rfl, .inl rfl, fun _ => ⟨represents_emptyTable validRatios_default
      roundCapacityUp_pos, rfl, rfl, rfl, rfl, allocated⟩⟩
  · exact ⟨_, _, rfl, .inr rfl, nofun⟩

variable [DecidableEq K]

/-- A key and its value join a table of the default ratios unless a growth cannot be
allocated. -/
theorem Represents.setValue_standard (rep : Represents hash ht live) (standard : Standard ht)
    (key : K) (value : V) :
    ∃ rc after, ht.setValue hash key value = some (rc, after)
      ∧ (rc = .success ∨ rc = .errOutOfResource)
      ∧ (rc = .success → Represents hash after (update live key (some value))
        ∧ Standard after) := by
  by_cases growable : live key = none → ht.growthTrigger ≤ ht.size + 1 → ht.Growable
  · obtain ⟨after, sets, kept, follows⟩ := rep.setValue key value growable
    exact ⟨_, after, sets, .inl rfl, fun _ => ⟨kept, standard.follows follows⟩⟩
  -- The key is inserted before the growth fails.
  push Not at growable
  obtain ⟨absent, reached, failed⟩ := growable
  rw [standard.growable_iff] at failed
  obtain ⟨r, inside, finds, ⟨old, holds⟩ | ⟨free, -⟩, -⟩ := rep.toInv.search key
  · rw [rep.of_held holds] at absent
    cases absent
  have allocated := standard.allocated
  unfold Allocatable at allocated
  have scaled := scale_eq ht.capacity (show (0 : Int) < 2 by decide) (by decide)
    (show (0 : Int) < 1 by decide) (by decide)
  rw [show (2 : Int).toNat = 2 from rfl, Int.toNat_one, Nat.div_one,
    Nat.mod_eq_of_lt (by omega)] at scaled
  refine ⟨.errOutOfResource, { ht with
    table := ht.table.set r (some (key, value)), size := ht.size + 1 }, ?_, .inr rfl, nofun⟩
  simp only [HashTable.setValue, finds, bind_eq_bind, bind_some, free,
    if_pos reached, HashTable.grow, standard.growthNumer, standard.growthDenom, scaled,
    if_pos failed]
  rfl

end Standard

end HashTable

namespace HashState

variable {K V : Type} [DecidableEq K] {hash : K → Nat} {s : HashState K V}

/-- A call that does not grow the table beyond what `size_t` counts and can be allocated. -/
def Fits (s : HashState K V) : HashAction K V → Prop
  | .setValue key _ =>
    s.live key = none → s.ht.growthTrigger ≤ s.ht.size + 1 → s.ht.Growable
  | _ => True

instance (s : HashState K V) : DecidablePred s.Fits
  | .setValue _ _ => inferInstanceAs (Decidable (_ → _ → _))
  | .removeValue _ => isTrue trivial
  | .removeAll => isTrue trivial

/-- The table answers as the map does. -/
structure Refines (hash : K → Nat) (s : HashState K V) : Prop where
  gets : ∀ key, s.ht.getValue hash key = some (match s.live key with
    | some value => (.success, some value)
    | none => (.errNotFound, none))
  sets : ∀ key value, s.Fits (.setValue key value) →
    ∃ after, s.ht.setValue hash key value = some (.success, after)
  removes : ∀ key, ∃ after, s.ht.removeValue hash key
    = some (if (s.live key).isSome then .success else .errNotFound, after)
  /-- A traversal visits every key of the map once, and the size is their number. -/
  visits : ∃ visited, (∀ turns, s.ht.size ≤ turns → s.ht.traverse turns none = visited)
    ∧ (visited.map Prod.fst).Nodup ∧ (∀ key value, (key, value) ∈ visited ↔ s.live key = some value)
    ∧ s.ht.size = visited.length

variable (rep : s.ht.Represents hash s.live)

include rep in
/-- A table that holds the map answers as the map does. -/
theorem refines_of_represents : Refines hash s where
  gets := rep.getValue
  sets key value fits := by
    obtain ⟨after, sets, -⟩ := rep.setValue key value fits
    exact ⟨after, sets⟩
  removes key := by
    obtain ⟨rc, after, removes, -, -, rfl⟩ := rep.removeValue key
    exact ⟨after, removes⟩
  visits := by
    have size := rep.size_eq_length
    refine ⟨s.ht.table.filterMap id, fun turns enough => ?_, ?_, fun key value => ?_, size⟩
    · exact HashTable.traverse_eq rep.length turns none (Nat.zero_le _)
        (show (s.ht.table.filterMap id).length ≤ turns by omega)
    · exact rep.nodup_keys
    · rw [Slots.mem_filterMap]
      exact (rep.pairs key value).symm

include rep in
/-- Every call that fits returns, and the table behind it holds the map behind it. -/
theorem represents_step {action : HashAction K V} (fits : s.Fits action) :
    ∃ after, s.step hash action = some after ∧ after.ht.Represents hash after.live := by
  cases action with
  | setValue key value =>
    obtain ⟨ht, sets, kept, -⟩ := rep.setValue key value fits
    exact ⟨_, by simp only [step, sets]; rfl, kept⟩
  | removeValue key =>
    obtain ⟨rc, ht, removes, kept, -⟩ := rep.removeValue key
    exact ⟨_, by simp only [step, removes]; rfl, kept⟩
  | removeAll => exact ⟨_, rfl, rep.toInv.removeAll⟩

/-- With positive ratios, and growths that `size_t` can count, a table answers as a map does in
every run of calls with keys of one kind. -/
theorem hash_table_refines_map (kind : KeyKind) (V : Type) (estimatedMaxSize : Nat)
    (densityNumer densityDenom growthNumer growthDenom : Int)
    (ratios : HashTable.ValidRatios densityNumer densityDenom growthNumer growthDenom)
    (ht : HashTable kind.Key V)
    (starts : HashTable.init2 estimatedMaxSize densityNumer densityDenom growthNumer growthDenom
      = some (.success, ht))
    (actions : List (HashAction kind.Key V))
    (fits : Machine.Along (step kind.hashElt) Fits ⟨ht, fun _ => none⟩ actions) :
    ∃ after, Machine.exec (step kind.hashElt) ⟨ht, fun _ => none⟩ actions = some after
      ∧ Refines kind.hashElt after := by
  obtain ⟨after, ran, rep⟩ := Machine.exec_total_along
    (P := fun s => s.ht.Represents kind.hashElt s.live)
    (fun _ _ rep fits => represents_step rep fits) (HashTable.represents_init2 ratios starts) fits
  exact ⟨after, ran, refines_of_represents rep⟩

/-- Byte strings in a table of no initial size and the default ratios. -/
theorem byte_strings_refine_map :
    ∃ ht, HashTable.init2 0 1 2 2 1 = some (.success, ht) ∧
      ∃ after, Machine.exec (step KeyKind.ptr.hashElt) ⟨ht, fun _ => none⟩
          [.setValue [1, 2] 7, .setValue [0, 33] 8, .removeValue [1, 2]] = some after
        ∧ Refines KeyKind.ptr.hashElt after :=
  ⟨_, rfl, hash_table_refines_map .ptr Nat 0 1 2 2 1 HashTable.validRatios_default _ rfl _
    (by decide +kernel)⟩

/-- A growth of minus two to minus one leaves a table of one slot full, and a search in it never
ends; a density of 0/1 divides by zero. -/
theorem negative_growth_never_ends : ((HashTable.init2 0 1 2 (-2) (-1)).bind fun start =>
        (start.2.setValue KeyKind.uint32.hashElt (5 : UInt32) 'a').bind fun result =>
          if result.1 = .success then some result.2 else none).map
        (fun ht => (ht.capacity, ht.size, ht.getValue KeyKind.uint32.hashElt (6 : UInt32)))
      = some (1, 1, none)
    ∧ HashTable.init2 (K := UInt32) (V := Char) 0 0 1 2 1 = none := by
  decide +kernel

end HashState

end EduMpi.Opal
