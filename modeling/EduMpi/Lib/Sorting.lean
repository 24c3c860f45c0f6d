import Mathlib.Data.List.Sort

/-! Sorting with a comparison function that returns a sign. -/

namespace Sorting

variable {α : Type} {cmp : α → α → Int}

/-- The sign agrees with itself under exchange, and is transitive. -/
structure Consistent (cmp : α → α → Int) : Prop where
  swap : ∀ a b, 0 < cmp a b ↔ cmp b a < 0
  trans : ∀ a b c, cmp a b ≤ 0 → cmp b c ≤ 0 → cmp a c ≤ 0

/-- A sorting function, for every consistent comparison. -/
def Sorts (sort : (α → α → Int) → List α → List α) : Prop :=
  ∀ cmp l, Consistent cmp → (sort cmp l).Perm l ∧ (sort cmp l).Pairwise (cmp · · ≤ 0)

/-- Insertion, as one sorting function that can be run. -/
def insertion (cmp : α → α → Int) (l : List α) : List α := l.insertionSort (cmp · · ≤ 0)

theorem insertion_sorts : Sorts (insertion (α := α)) := by
  intro cmp l consistent
  refine ⟨List.perm_insertionSort _ l, ?_⟩
  have : Std.Total (α := α) (cmp · · ≤ 0) := by
    refine ⟨fun a b => ?_⟩
    have := consistent.swap b a
    omega
  have : IsTrans α (cmp · · ≤ 0) := ⟨consistent.trans⟩
  exact List.pairwise_insertionSort _ l

/-- Where only equal elements compare equal, sorting a list without repetition orders it strictly. -/
theorem Sorts.strict {sort : (α → α → Int) → List α → List α} (sorts : Sorts sort)
    (consistent : Consistent cmp) {l : List α} (once : l.Nodup)
    (equal : ∀ a b, cmp a b = 0 → a = b) : (sort cmp l).Pairwise (cmp · · < 0) := by
  obtain ⟨perm, sorted⟩ := sorts cmp l consistent
  have distinct : (sort cmp l).Pairwise (· ≠ ·) := perm.nodup_iff.mpr once
  exact (sorted.and distinct).imp fun {a b} both =>
    lt_of_le_of_ne both.1 fun zero => both.2 (equal a b zero)

end Sorting
