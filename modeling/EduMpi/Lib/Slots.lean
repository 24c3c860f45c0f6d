import Mathlib.Data.List.GetD
import Mathlib.Data.List.Pairwise
import Mathlib.Logic.Function.Basic
import Mathlib.Tactic.Common

/-! Lists of slots that may be empty, read as functions of the index. -/

namespace Slots

open List
open Function (update_of_ne update_self update)
open Option (isSome)

variable {α β : Type*} {slots : List (Option α)} {r : Nat} {v : Option α} {n : Nat} {a : α}

/-- What a slot holds; slots outside the list are empty. -/
def held (slots : List (Option α)) (i : Nat) : Option α := slots.getD i none

theorem held_of_lt (inside : r < slots.length) : held slots r = slots[r] :=
  getD_eq_getElem _ _ inside

theorem held_of_ge (outside : slots.length ≤ r) : held slots r = none :=
  getD_eq_default _ _ outside

section Updates

variable {ι : Type*} {f : ι → Option α} {i r : ι} {a : α}

theorem ne_of_holds (free : f r = none) (holds : f i = some a) : i ≠ r := by
  rintro rfl
  rw [free] at holds
  cases holds

theorem lt_of_holds {f : Nat → Option α} {n i : Nat} (inside : ∀ i, n ≤ i → f i = none)
    (holds : f i = some a) : i < n := by
  by_contra outside
  exact ne_of_holds (inside i (by omega)) holds rfl

/-- A value in the slots after one of them changed is the new one, or is where it was. -/
theorem holds_update [DecidableEq ι] (holds : update f r v i = some a) :
    i = r ∧ v = some a ∨ i ≠ r ∧ f i = some a := by
  by_cases same : i = r
  · rw [same, update_self] at holds
    exact .inl ⟨same, holds⟩
  · rw [update_of_ne same] at holds
    exact .inr ⟨same, holds⟩

end Updates

theorem lt_of_held (holds : held slots r = some a) : r < slots.length :=
  lt_of_holds (fun _ => held_of_ge) holds

theorem held_replicate_none : held (List.replicate n (none : Option α)) r = none := by
  rw [held, getD_eq_getElem?_getD, List.getElem?_replicate]
  split <;> rfl

theorem countP_replicate_none : (List.replicate n (none : Option α)).countP isSome = 0 := by
  rw [countP_replicate, Option.isSome_none, if_neg Bool.false_ne_true]

/-- Appended empty slots change nothing. -/
theorem held_append_none : held (slots ++ List.replicate n none) r = held slots r := by
  rcases Nat.lt_or_ge r slots.length with old | new
  · rw [held, getD_append _ _ _ _ old]
    rfl
  · rw [held, getD_append_right _ _ _ _ new, held_of_ge new]
    exact held_replicate_none

/-- A store into a slot is an update at its index. -/
theorem held_set (inside : r < slots.length) : held (slots.set r v) = update (held slots) r v := by
  funext i
  by_cases same : i = r
  · subst same
    rw [update_self, held_of_lt (by simpa using inside), getElem_set_self]
  · rw [update_of_ne same, held, held, getD_eq_getElem?_getD,
      getD_eq_getElem?_getD, List.getElem?_set_ne (Ne.symm same)]

/-- A store changes the number of slots with a property by what it makes of one slot. -/
theorem countP_set {p : Option α → Bool} (inside : r < slots.length) :
    (slots.set r v).countP p + (if p (held slots r) then 1 else 0)
      = slots.countP p + (if p v then 1 else 0) := by
  rw [List.countP_set inside, held_of_lt inside]
  have counted : (if p slots[r] then 1 else 0) ≤ slots.countP p := by
    split
    · rename_i holds
      exact countP_pos_iff.mpr ⟨_, getElem_mem inside, holds⟩
    · exact Nat.zero_le _
  omega

/-- Moving a value to an empty slot changes neither the values nor their number. -/
theorem held_swap {gap current : Nat} (gapInside : gap < slots.length)
    (currentInside : current < slots.length) (other : current ≠ gap) (free : held slots gap = none)
    (holds : held slots current = some a) :
    held ((slots.set gap (some a)).set current none)
        = update (update (held slots) gap (some a)) current none
      ∧ (∀ value, (∃ i, held ((slots.set gap (some a)).set current none) i = some value)
          ↔ ∃ i, held slots i = some value)
      ∧ ((slots.set gap (some a)).set current none).countP isSome = slots.countP isSome := by
  have stored : held ((slots.set gap (some a)).set current none)
      = update (update (held slots) gap (some a)) current none := by
    rw [held_set (by simpa using currentInside), held_set gapInside]
  refine ⟨stored, fun value => ?_, ?_⟩
  · rw [stored]
    constructor
    · rintro ⟨i, atI⟩
      obtain ⟨-, stored⟩ := (holds_update atI).resolve_left nofun
      rcases holds_update stored with ⟨-, moved⟩ | ⟨-, kept⟩
      · exact ⟨current, holds.trans moved⟩
      · exact ⟨i, kept⟩
    · rintro ⟨i, atI⟩
      by_cases isCurrent : i = current
      · refine ⟨gap, ?_⟩
        rw [update_of_ne (Ne.symm other), update_self, ← holds, ← isCurrent, atI]
      · exact ⟨i, by rw [update_of_ne isCurrent, update_of_ne (ne_of_holds free atI), atI]⟩
  · have first := countP_set (v := some a) (p := isSome) gapInside
    have second : ((slots.set gap (some a)).set current none).countP isSome
        + (if (held (slots.set gap (some a)) current).isSome then 1 else 0)
          = (slots.set gap (some a)).countP isSome
            + (if (none : Option α).isSome then 1 else 0) :=
      countP_set (by simpa using currentInside)
    rw [held_set gapInside, update_of_ne other, holds] at second
    simp only [free, Option.isSome_some, if_true] at first second
    omega

/-- If fewer slots are filled than there are, one is empty. -/
theorem exists_free (room : slots.countP isSome < slots.length) :
    ∃ e < slots.length, held slots e = none := by
  by_contra none_free
  push Not at none_free
  have all : slots.countP isSome = slots.length := by
    rw [countP_eq_length]
    intro slot member
    obtain ⟨i, inside, rfl⟩ := getElem_of_mem member
    have filled := none_free i inside
    rw [held_of_lt inside] at filled
    exact Option.isSome_iff_ne_none.mpr filled
  omega

/-- The values of the filled slots. -/
theorem mem_filterMap : a ∈ slots.filterMap id ↔ ∃ i, held slots i = some a := by
  rw [List.mem_filterMap]
  constructor
  · rintro ⟨slot, member, same⟩
    obtain ⟨i, inside, rfl⟩ := getElem_of_mem member
    exact ⟨i, (held_of_lt inside).trans same⟩
  · rintro ⟨i, holds⟩
    have inside := lt_of_held holds
    exact ⟨slots[i], getElem_mem inside, (held_of_lt inside).symm.trans holds⟩

/-- Values that differ between slots are listed once each. -/
theorem nodup_filterMap {key : α → β}
    (unique : ∀ i j a b, held slots i = some a → held slots j = some b → key a = key b → i = j) :
    ((slots.filterMap id).map key).Nodup := by
  rw [List.Nodup, pairwise_map, pairwise_filterMap, pairwise_iff_getElem]
  intro i j insideI insideJ less a heldA b heldB same
  have equal := unique i j a b ((held_of_lt insideI).trans heldA)
    ((held_of_lt insideJ).trans heldB) same
  omega

end Slots
