import EduMpi.Opal.PointerArrayLaws

/-! How far the array of pointers grows, and what a growth that fails leaves behind. -/

namespace EduMpi.Opal.PointerArray

open Ints Machine List
open Option hiding guard

variable {α : Type} {table after : PointerArray α} {action : Action α} {atLeast : Int}

/-- The slot that a call asks `grow_table` for, if it does. -/
def growth (table : PointerArray α) : Action α → Option Int
  | .add _ => if table.numberFree = 0 then some (table.size + 1) else none
  | .setItem index _ => if 0 ≤ index ∧ table.size ≤ index then some index else none
  | .testAndSetItem index _ => if 0 ≤ index ∧ table.size ≤ index then some index else none
  | .setSize newSize => if table.size < newSize then some newSize else none
  | .removeAll => none

section Limit

/-- A size that is rounded up stays inside an `int`. -/
theorem fits_of_roundUp (rounds : table.roundUp atLeast ≠ none) :
    atLeast + 1 + table.blockSize ≤ intMax := by
  by_contra beyond
  exact rounds (if_pos (.inr (by omega)))

/-- So does that of a growth that returns. -/
theorem fits_of_growTable (returns : table.growTable atLeast ≠ none) :
    atLeast + 1 + table.blockSize ≤ intMax := by
  refine fits_of_roundUp fun overflows => ?_
  simp [growTable, growTableWith, overflows] at returns

section Records

variable (records : Records table)

include records

/-- And so does that of a call that returns. -/
theorem Records.fits_of_step (taken : table.step action = some after) : table.Fits action := by
  have slots := records.slots
  unfold PointerArray.step PointerArray.call at taken
  -- A step that is defined has not failed to grow the table.
  cases action with
  | add v =>
    intro full
    refine fits_of_growTable fun failed => ?_
    simp [PointerArray.add, PointerArray.makeRoom, full, failed] at taken
  | setItem index v =>
    intro behind
    obtain ⟨slot, rfl⟩ := Int.eq_ofNat_of_zero_le (show 0 ≤ index by omega)
    refine fits_of_growTable fun failed => ?_
    simp [PointerArray.setItem, PointerArray.makeRoomAt, behind, failed] at taken
    omega
  | testAndSetItem index v =>
    have nonneg : 0 ≤ index := by
      by_contra negative
      simp [PointerArray.testAndSetItem, guard, negative] at taken
    refine ⟨nonneg, fun behind => ?_⟩
    obtain ⟨slot, rfl⟩ := Int.eq_ofNat_of_zero_le nonneg
    refine fits_of_growTable fun failed => ?_
    simp [PointerArray.testAndSetItem, PointerArray.makeRoomAt, guard, behind, failed,
      Int.not_lt.mpr behind] at taken
  | setSize newSize =>
    intro larger
    refine fits_of_growTable fun failed => ?_
    simp [PointerArray.setSize, larger, failed] at taken
  | removeAll => trivial

/-- A slot that a null pointer takes can only be given the null pointer again: the check of its bit
fails otherwise. -/
theorem Records.setItem_reserved {index : Nat} {rc : ArrayRc} {v : Option α}
    (empty : table.value index = none) (inUse : table.used index = true)
    (sets : table.setItem index v = some (rc, after)) :
    after = { table with addr := table.addr.set index none } := by
  have slots := records.slots
  have inside := records.toMarked.lt_of_used inUse
  have there : ¬ table.size ≤ (index : Int) := by omega
  have within : (index : Int) < table.size := by omega
  cases v with
  | none =>
    simp [PointerArray.setItem, PointerArray.makeRoomAt, PointerArray.remark, PointerArray.store,
      guard, there, within, empty, inside, show ¬ (index : Int) < 0 by omega] at sets
    exact sets.2.symm
  | some p =>
    have refused := records.toMarked.setBit_eq inside (table.numberFree - 1) table.addr
    rw [if_pos inUse] at refused
    simp [PointerArray.setItem, PointerArray.makeRoomAt, PointerArray.remark, guard, there, within,
      empty, refused, show ¬ (index : Int) < 0 by omega] at sets

/-- Nor can it be taken again by a test. -/
theorem Records.testAndSetItem_reserved {index : Nat} {v : Option α}
    (empty : table.value index = none) (inUse : table.used index = true) :
    table.testAndSetItem index v = none := by
  have slots := records.slots
  have inside := records.toMarked.lt_of_used inUse
  have refused := records.toMarked.setBit_eq inside (table.numberFree - 1) (table.addr.set index v)
  rw [if_pos inUse] at refused
  simp [PointerArray.testAndSetItem, PointerArray.makeRoomAt, PointerArray.occupy,
    PointerArray.store, guard, empty, inside, refused, show ¬ table.size ≤ (index : Int) by omega]

/-- Whatever call returns, it keeps the records in agreement and stays inside the limits. -/
theorem Records.of_step (taken : table.step action = some after) :
    Records after ∧ after.bounds = table.bounds := by
  have fits := records.fits_of_step taken
  unfold PointerArray.step PointerArray.call at taken
  cases action with
  | add v =>
    obtain ⟨result, next, adds, kept, bounds, -⟩ := records.add v fits
    simp only [adds, map_some, some.injEq] at taken
    exact taken ▸ ⟨kept, bounds⟩
  | setItem index v =>
    by_cases whole : table.used index.toNat = (table.value index.toNat).isSome
    · obtain ⟨rc, next, sets, kept, bounds, -⟩ := records.setItem index v fits whole
      simp only [sets, map_some, some.injEq] at taken
      exact taken ▸ ⟨kept, bounds⟩
    -- The slot is marked and holds the null pointer.
    obtain ⟨inUse, empty⟩ : table.used index.toNat = true ∧ table.value index.toNat = none := by
      have holds := records.holds index.toNat
      cases marked : table.used index.toNat <;> cases here : table.value index.toNat <;> simp_all
    by_cases negative : index < 0
    · simp [PointerArray.setItem, negative] at taken
      exact taken ▸ ⟨records, rfl⟩
    obtain ⟨slot, rfl⟩ := Int.eq_ofNat_of_zero_le (show 0 ≤ index by omega)
    rw [Option.map_map, Option.map_eq_some_iff] at taken
    obtain ⟨⟨rc, next⟩, sets, rfl⟩ := taken
    obtain rfl := records.setItem_reserved empty inUse sets
    exact ⟨records.store (records.toMarked.lt_of_used inUse) nofun, rfl⟩
  | testAndSetItem index v =>
    obtain ⟨slot, rfl⟩ := Int.eq_ofNat_of_zero_le fits.1
    -- An empty slot that is marked would fail an assertion of the code.
    have whole : table.value slot = none → table.used slot = false := fun empty => by
      by_contra inUse
      have refused := records.testAndSetItem_reserved (v := v) empty
        (Bool.eq_true_of_not_eq_false inUse)
      simp [refused] at taken
    obtain ⟨result, next, tests, kept, bounds, -⟩ := records.testAndSetItem v fits.2 whole
    simp only [tests, map_some, some.injEq] at taken
    exact taken ▸ ⟨kept, bounds⟩
  | setSize newSize =>
    obtain ⟨rc, next, sizes, kept, bounds, -⟩ := records.setSize newSize fits
    simp only [sizes, map_some, some.injEq] at taken
    exact taken ▸ ⟨kept, bounds⟩
  | removeAll =>
    obtain rfl := some.inj taken
    exact ⟨records.removeAll.1.toRecords, records.removeAll.2⟩

end Records

/-- No history of calls takes the array beyond the limit that it was made with. -/
theorem records_of_exec {start : PointerArray α} {initialAllocation maxSize blockSize : Int}
    (fits : initialAllocation ≤ maxSize) (block : 0 ≤ blockSize)
    (starts : init initialAllocation maxSize blockSize = (.success, some start))
    {actions : List (Action α)} (ran : exec step start actions = some table) :
    Records table ∧ table.maxSize = maxSize ∧ table.size ≤ maxSize := by
  have kept : Records table ∧ table.bounds = start.bounds := by
    refine exec_keeps (P := fun t => Records t ∧ t.bounds = start.bounds) (fun s a t => ?_)
      ⟨(inv_init block starts).toRecords, rfl⟩ ran
    rintro ⟨records, same⟩ taken
    obtain ⟨next, bounds⟩ := records.of_step taken
    exact ⟨next, bounds.trans same⟩
  have limit : start.maxSize = maxSize ∧ start.size ≤ maxSize := by
    obtain ⟨slots, -, chosen, most, rfl⟩ := init_eq starts
    exact ⟨rfl, show slots ≤ maxSize by omega⟩
  have same : table.maxSize = start.maxSize := congrArg (·.1.1) kept.2
  have most : max table.size table.maxSize = max start.size start.maxSize :=
    congrArg Prod.snd kept.2
  exact ⟨kept.1, by omega, by omega⟩

/-- After any history of calls an addition returns, and with an error only if as many slots are used
as the array may have, exactly unless the array is full at one slot below its limit, or full where
the next size is beyond an `int`. -/
theorem add_refused_iff (initialAllocation maxSize blockSize : Int)
    (fits : initialAllocation ≤ maxSize) (block : 0 ≤ blockSize) (start : PointerArray α)
    (starts : init initialAllocation maxSize blockSize = (.success, some start))
    (actions : List (Action α)) (ran : exec step start actions = some table) (v : Option α) :
    (∃ result after, table.add v = some (result, after) ∧
        ∀ rc, result = .error rc → (table.usedSlots : Int) = maxSize) ↔
      ¬ table.OneShort ∧ table.Fits (.add v) := by
  obtain ⟨records, rfl, most⟩ := records_of_exec fits block starts ran
  have free := records.free
  constructor
  · -- With one slot short of the limit the code refuses although a slot is left.
    rintro ⟨result, after, adds, refused⟩
    have counts : table.Fits (.add v) := records.fits_of_step (by rw [step, call, adds]; rfl)
    refine ⟨fun ⟨full, last⟩ => ?_, counts⟩
    obtain ⟨result', after', adds', -, -, refuses, -⟩ := records.add v counts
    cases adds.symm.trans adds'
    have stored := refused _ (refuses ⟨full, by omega⟩).1
    omega
  · rintro ⟨other, counts⟩
    obtain ⟨result, after, adds, -, -, -, accepts⟩ := records.add v counts
    refine ⟨result, after, adds, fun rc refused => ?_⟩
    -- An array with room would have taken the pointer.
    have full : table.numberFree = 0 ∧ table.maxSize ≤ table.size + 1 := by
      by_contra room
      obtain ⟨index, accepted, -⟩ := accepts room
      cases accepted.symm.trans refused
    unfold OneShort at other
    omega

/-- An array at its limit of two slots, one of which a null pointer took after all were removed,
refuses a third pointer. -/
theorem full_array_add_refused :
    ∃ table : PointerArray Nat, (table.add (some 7)).map Prod.fst = some (.error .errOutOfResource)
      ∧ ∃ result after, table.add (some 7) = some (result, after)
        ∧ ∀ rc, result = .error rc → (table.usedSlots : Int) = 2 := by
  obtain ⟨start, starts, table, ran, refused, size⟩ : ∃ start : PointerArray Nat,
      init 2 2 1 = (.success, some start) ∧ ∃ table,
        exec step start [.add (some 5), .removeAll, .add none, .add (some 6)] = some table
          ∧ (table.add (some 7)).map Prod.fst = some (.error .errOutOfResource)
          ∧ (table.size, table.maxSize, table.blockSize) = (2, 2, 1) :=
    ⟨_, rfl, _, rfl, rfl, rfl⟩
  refine ⟨table, refused, ?_⟩
  simp only [Prod.mk.injEq] at size
  refine (add_refused_iff 2 2 1 (by decide) (by decide) start starts _ ran (some 7)).mpr ⟨?_, ?_⟩
  · unfold OneShort
    omega
  · unfold Fits intMax
    omega

/-- An array that may hold two pointers refuses the second one. -/
theorem array_of_two_refuses_second :
    ∃ start table : PointerArray Nat, init 1 2 1 = (.success, some start)
      ∧ exec step start [.add (some 5)] = some table
      ∧ (table.add (some 7)).map Prod.fst = some (.error .errOutOfResource)
      ∧ table.usedSlots = 1 :=
  ⟨_, _, rfl, rfl, rfl, rfl⟩

end Limit

section Failures

/-- What a call returns when its growth fails. -/
def refused : Action α → Reply
  | .add _ => .index (.error .errOutOfResource)
  | .setItem _ _ => .rc .error
  | .testAndSetItem _ _ => .taken false
  | .setSize _ => .rc .error
  | .removeAll => .void

/-- One call with its result, and with the success of the reallocations that it may make. A call
whose growth fails returns at once, and every other one goes on with the larger array. -/
def callWith (table : PointerArray α) (call : Action α × Bool × Bool) :
    Option (Reply × PointerArray α) :=
  match table.growth call.1 with
  | none => table.call call.1
  | some atLeast => do
    let (grown, after) ← growTableWith call.2.1 call.2.2 table atLeast
    if grown then table.call call.1 else some (refused call.1, after)

/-- One call with the success of its reallocations. -/
def stepWith (table : PointerArray α) (call : Action α × Bool × Bool) : Option (PointerArray α) :=
  (table.callWith call).map Prod.snd

/-- The bits are reallocated if the call has reallocated the slots for them. -/
def BitsGrow (table : PointerArray α) (call : Action α × Bool × Bool) : Prop :=
  call.2.2 = true ∨ ∀ atLeast ∈ table.growth call.1, ∀ rounded ∈ table.roundUp atLeast,
    call.2.1 = false ∨ table.maxSize ≤ atLeast
      ∨ elemCount table.size = elemCount (min rounded table.maxSize)

instance (table : PointerArray α) : DecidablePred table.BitsGrow :=
  fun _ => inferInstanceAs (Decidable (_ ∨ _))

/-- The slot asked for is behind the end, and the size for it is rounded up behind it. -/
theorem Records.roundUp_of_growth (records : Records table) {rounded : Int}
    (asks : table.growth action = some atLeast) (rounds : table.roundUp atLeast = some rounded) :
    table.size ≤ atLeast ∧ atLeast < rounded := by
  have slots := records.slots
  have behind : 0 ≤ atLeast ∧ table.size ≤ atLeast := by
    cases action <;> simp only [growth, Option.ite_none_right_eq_some, some.injEq, reduceCtorEq] at asks <;>
      omega
  have fits : atLeast + 1 + table.blockSize ≤ intMax := fits_of_roundUp (by simp [rounds])
  obtain ⟨other, rounds', above⟩ := records.toMarked.roundUp behind.1 fits
  cases rounds.symm.trans rounds'
  exact ⟨behind.2, above⟩

/-- A growth that fails before the slots are reallocated changes nothing; one that fails behind that
leaves more slots than the size says. -/
theorem Records.growTableWith_false (records : Records table) {call : Action α × Bool × Bool}
    (asks : table.growth call.1 = some atLeast)
    (fails : growTableWith call.2.1 call.2.2 table atLeast = some (false, after)) :
    if table.BitsGrow call then after = table
    else after.size = table.size ∧ (after.addr.length : Int) ≠ table.size := by
  have slots := records.slots
  obtain ⟨rounded, rounds, rest⟩ := Option.bind_eq_some_iff.mp fails
  obtain ⟨behind, above⟩ := records.roundUp_of_growth asks rounds
  have grow : table.BitsGrow call ↔ call.2.2 = true ∨ call.2.1 = false ∨ table.maxSize ≤ atLeast
      ∨ elemCount table.size = elemCount (min rounded table.maxSize) := by
    simp only [BitsGrow, asks, rounds, Option.mem_some_iff, forall_eq']
  simp only [Option.pure_def] at rest
  split_ifs at rest with limit failed apart <;> simp only [some.injEq, Prod.mk.injEq, true_and,
    reduceCtorEq, false_and] at rest <;> subst rest
  · rw [if_pos (grow.mpr (.inr (.inr (.inl limit.2))))]
  · -- No slots were allocated, so nothing has changed.
    rw [if_pos (grow.mpr ?_)]
    rcases failed with negative | noSlots
    · omega
    · simp_all
  · -- The slots were reallocated, and their bits were not.
    simp only [Bool.not_eq_true', not_or, Bool.not_eq_false] at failed apart
    have larger : (table.resize (min rounded table.maxSize)).addr.length
        = (min rounded table.maxSize).toNat := by
      simp only [PointerArray.resize, length_append, length_take, length_replicate]
      omega
    rw [if_neg (mt grow.mp (by simp [apart, failed]; omega))]
    refine ⟨rfl, ?_⟩
    simp only [larger]
    omega

/-- A call whose growth does not fail behind the reallocation of the slots keeps the records. -/
theorem Records.stepWith (records : Records table) {call : Action α × Bool × Bool}
    (bits : table.BitsGrow call) (taken : table.stepWith call = some after) : Records after := by
  unfold PointerArray.stepWith PointerArray.callWith at taken
  cases asks : table.growth call.1 with
  | none =>
    rw [asks] at taken
    exact (records.of_step taken).1
  | some atLeast =>
    simp only [asks, bind_eq_bind] at taken
    cases grows : growTableWith call.2.1 call.2.2 table atLeast with
    | none => simp [grows] at taken
    | some result =>
      obtain ⟨grown, next⟩ := result
      simp only [grows, bind_some] at taken
      cases grown with
      | true => exact (records.of_step taken).1
      | false =>
        have same := records.growTableWith_false asks grows
        rw [if_pos bits] at same
        simp only [Bool.false_eq_true, if_false, map_some, some.injEq] at taken
        exact taken ▸ same ▸ records

/-- After any calls in which the bits were reallocated wherever the slots were, a call whose growth
fails is refused and keeps the size, and the records agree afterwards exactly if the same holds of
its own reallocations; then nothing has changed. -/
theorem failed_growth_keeps_records_iff (initialAllocation maxSize blockSize : Int)
    (block : 0 ≤ blockSize) (start : PointerArray α)
    (starts : init initialAllocation maxSize blockSize = (.success, some start))
    (calls : List (Action α × Bool × Bool)) (grows : Along stepWith BitsGrow start calls)
    (ran : exec stepWith start calls = some table) (call : Action α × Bool × Bool)
    (asks : table.growth call.1 = some atLeast)
    (fails : growTableWith call.2.1 call.2.2 table atLeast = some (false, after)) :
    table.callWith call = some (refused call.1, after) ∧ after.size = table.size
      ∧ (Records after ↔ table.BitsGrow call) ∧ (table.BitsGrow call → after = table) := by
  have records : Records table := exec_keeps_along (fun _ _ _ kept bits taken => kept.stepWith bits taken)
    (inv_init block starts).toRecords grows ran
  have effect := records.growTableWith_false asks fails
  refine ⟨by simp [callWith, asks, fails], ?_⟩
  by_cases bits : table.BitsGrow call
  · rw [if_pos bits] at effect
    subst effect
    exact ⟨rfl, iff_of_true records bits, fun _ => rfl⟩
  · rw [if_neg bits] at effect
    refine ⟨effect.1, iff_of_false (fun kept => ?_) bits, fun grow => absurd grow bits⟩
    -- The slots are more than the size says.
    have slots := kept.slots
    rw [effect.1] at slots
    exact effect.2 slots

/-- The slots of an array that has grown once cannot be reallocated: the addition is refused, and the
array is what it was. -/
theorem failed_slots_keep_records :
    ∃ start table : PointerArray Nat, init 1 200 64 = (.success, some start)
      ∧ exec stepWith start [(.setSize 1, true, true), (.add (some 5), true, true)] = some table
      ∧ table.callWith (.add (some 7), false, true) = some (.index (.error .errOutOfResource), table)
      ∧ Records table := by
  obtain ⟨start, table, starts, ran, fails⟩ : ∃ start table : PointerArray Nat,
      init 1 200 64 = (.success, some start)
        ∧ exec stepWith start [(.setSize 1, true, true), (.add (some 5), true, true)] = some table
        ∧ growTableWith false true table 2 = some (false, table) ∧ table.growth (.add (some 7)) = some 2 :=
    ⟨_, _, rfl, rfl, rfl, rfl⟩
  have kept := failed_growth_keeps_records_iff 1 200 64 (by decide) start starts _ (by
    cases starts; decide +kernel) ran (.add (some 7), false, true) fails.2 fails.1
  exact ⟨start, table, starts, ran, kept.1, kept.2.2.1.mpr (.inl rfl)⟩

/-- An array of one slot whose bits could not be reallocated counts 128 free ones, and the next
addition fails its check of that number. -/
theorem failed_bits_miscount :
    ∃ start : PointerArray Nat, init 1 200 64 = (.success, some start)
      ∧ (start.stepWith (.setSize 64, true, false)).map (fun t => (t.size, t.numberFree))
          = some (1, 128)
      ∧ exec stepWith start [(.setSize 64, true, false), (.add (some 5), true, true)] = none :=
  ⟨_, rfl, by decide +kernel, by decide +kernel⟩

end Failures

end EduMpi.Opal.PointerArray
