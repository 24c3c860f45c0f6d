import Mathlib.Data.List.Nodup
import Mathlib.Tactic.Common

/-! Lists read by signed positions, and the selections that lists of positions make from them. -/

namespace Positions

open List

variable {α β : Type*} {xs : List α} {is : List Int} {a b : α} {i j u : Int}

/-- The element at a position, if there is one. -/
def get? (xs : List α) (i : Int) : Option α := if i < 0 then none else xs[i.toNat]?

@[simp]
theorem get?_natCast (n : Nat) : get? xs (n : Int) = xs[n]? := by
  have low : ¬(n : Int) < 0 := by omega
  rw [get?, if_neg low, Int.toNat_natCast]

theorem get?_of_neg (negative : i < 0) : get? xs i = none := if_pos negative

theorem get?_cons : get? (a :: xs) i = if i = 0 then some a else get? xs (i - 1) := by
  by_cases first : i = 0
  · subst first
    rfl
  rw [if_neg first]
  by_cases negative : i < 0
  · rw [get?_of_neg negative, get?_of_neg (by omega)]
  · obtain ⟨n, rfl⟩ : ∃ n : Nat, i = (n + 1 : Nat) := ⟨(i - 1).toNat, by omega⟩
    rw [get?_natCast, List.getElem?_cons_succ, show ((n + 1 : Nat) : Int) - 1 = n by omega,
      get?_natCast]

theorem get?_eq_some_iff : get? xs i = some a ↔ ∃ n : Nat, i = n ∧ xs[n]? = some a := by
  constructor
  · -- A position that is read is not negative.
    intro here
    by_cases negative : i < 0
    · rw [get?_of_neg negative] at here
      cases here
    · obtain ⟨n, rfl⟩ := Int.eq_ofNat_of_zero_le (Int.not_lt.mp negative)
      exact ⟨n, rfl, by rwa [get?_natCast] at here⟩
  · rintro ⟨n, rfl, here⟩
    rwa [get?_natCast]

/-- The positions inside a list are those that are read. -/
theorem exists_get?_iff : (∃ a, get? xs i = some a) ↔ 0 ≤ i ∧ i < xs.length := by
  simp only [get?_eq_some_iff]
  constructor
  · rintro ⟨a, n, rfl, here⟩
    have := (List.getElem?_eq_some_iff.mp here).1
    omega
  · rintro ⟨low, high⟩
    obtain ⟨n, rfl⟩ := Int.eq_ofNat_of_zero_le low
    have inside : n < xs.length := by omega
    exact ⟨xs[n], n, rfl, List.getElem?_eq_getElem inside⟩

theorem mem_of_get? (here : get? xs i = some a) : a ∈ xs := by
  obtain ⟨n, -, found⟩ := get?_eq_some_iff.mp here
  exact mem_of_getElem? found

theorem get?_map (f : α → β) : get? (xs.map f) i = (get? xs i).map f := by
  unfold get?
  split
  · rfl
  · exact List.getElem?_map ..

/-- In a list without repetition an element has one position. -/
theorem get?_inj (distinct : xs.Nodup) (here : get? xs i = some a) (there : get? xs j = some a) :
    i = j := by
  obtain ⟨n, rfl, found⟩ := get?_eq_some_iff.mp here
  obtain ⟨m, rfl, found'⟩ := get?_eq_some_iff.mp there
  have inside := (List.getElem?_eq_some_iff.mp found).1
  exact congrArg _ ((List.getElem?_inj inside distinct).mp (found.trans found'.symm))

section Rank

variable [DecidableEq α]

/-- The position of an element, or the given value when it does not occur. -/
def rankOf (u : Int) (xs : List α) (a : α) : Int := if a ∈ xs then (xs.idxOf a : Int) else u

theorem rankOf_of_notMem (absent : a ∉ xs) : rankOf u xs a = u := if_neg absent

/-- The element is at its position. -/
theorem get?_rankOf (member : a ∈ xs) : get? xs (rankOf u xs a) = some a := by
  rw [rankOf, if_pos member]
  exact List.getElem?_idxOf member

theorem rankOf_of_get? (distinct : xs.Nodup) (here : get? xs i = some a) : rankOf u xs a = i :=
  get?_inj distinct (get?_rankOf (mem_of_get? here)) here

theorem rankOf_cons_self : rankOf u (a :: xs) a = 0 := by
  simp [rankOf]

theorem rankOf_cons_of_ne (other : b ≠ a) (member : a ∈ xs) :
    rankOf u (b :: xs) a = rankOf u xs a + 1 := by
  rw [rankOf, rankOf, if_pos member, if_pos (mem_cons_of_mem b member), idxOf_cons_ne _ other]
  rfl

end Rank

/-- The elements at some positions, in the order in which these are listed. -/
def pick (xs : List α) (is : List Int) : List α := is.filterMap (get? xs)

theorem pick_cons (here : get? xs i = some a) : pick xs (i :: is) = a :: pick xs is :=
  filterMap_cons_some here

theorem mem_pick : a ∈ pick xs is ↔ ∃ i ∈ is, get? xs i = some a := mem_filterMap

/-- Different positions of a list without repetition select different elements. -/
theorem nodup_pick (distinct : xs.Nodup) (once : is.Nodup) : (pick xs is).Nodup := by
  refine List.Nodup.filterMap ?_ once
  intro i j a here there
  exact get?_inj distinct here there

section Inside

variable (inside : ∀ i ∈ is, 0 ≤ i ∧ i < xs.length)
include inside

/-- A selection has as many elements as positions are listed. -/
theorem length_pick : (pick xs is).length = is.length := by
  induction is with
  | nil => rfl
  | cons i is ih =>
    obtain ⟨a, here⟩ := exists_get?_iff.mpr (inside i mem_cons_self)
    rw [pick_cons here, length_cons, length_cons,
      ih fun i' member => inside i' (mem_cons_of_mem i member)]

/-- What stands at a position of the selection. -/
theorem get?_pick : get? (pick xs is) j = (get? is j).bind (get? xs) := by
  by_cases negative : j < 0
  · rw [get?_of_neg negative, get?_of_neg negative, Option.bind_none]
  obtain ⟨n, rfl⟩ := Int.eq_ofNat_of_zero_le (Int.not_lt.mp negative)
  -- Every listed position contributes one element, so the two lists go together.
  induction is generalizing n with
  | nil => rfl
  | cons i is ih =>
    obtain ⟨a, here⟩ := exists_get?_iff.mpr (inside i mem_cons_self)
    rw [pick_cons here]
    cases n with
    | zero => exact here.symm
    | succ n => exact ih (fun i' member => inside i' (mem_cons_of_mem i member)) n (by omega)

/-- An element's rank in a selection is that of its position among the positions. -/
theorem rankOf_pick [DecidableEq α] (distinct : xs.Nodup) (once : is.Nodup)
    (here : get? xs i = some a) : rankOf u (pick xs is) a = rankOf u is i := by
  by_cases member : i ∈ is
  · refine rankOf_of_get? (nodup_pick distinct once) ?_
    rw [get?_pick inside, get?_rankOf member]
    exact here
  · -- Another position would hold the element a second time.
    rw [rankOf_of_notMem member, rankOf_of_notMem]
    intro picked
    obtain ⟨j, listed, there⟩ := mem_pick.mp picked
    exact member (get?_inj distinct here there ▸ listed)

end Inside

end Positions
