import Mathlib.Data.List.OfFn
import Mathlib.Data.List.MinMax
import Mathlib.Tactic.Common

/-! Reductions over the contributions of all processes, defined once everyone has contributed. -/

namespace Allreduce

variable {n : Nat} {posts : Fin n → Option Int} {m v : Int} {i : Fin n} {more : Fin n → Option Int}
  {P : Int → Prop}

/-- Every process has contributed. -/
def Complete (posts : Fin n → Option Int) : Prop := ∀ i, (posts i).isSome = true

instance (posts : Fin n → Option Int) : Decidable (Complete posts) :=
  inferInstanceAs (Decidable (∀ _, _))

/-- The contributions in the order of the processes. -/
def values (posts : Fin n → Option Int) : List Int := List.ofFn fun i => (posts i).getD 0

/-- The largest contribution. -/
def maximum (posts : Fin n → Option Int) : Option Int :=
  if Complete posts then (values posts).max? else none

/-- The smallest contribution. -/
def minimum (posts : Fin n → Option Int) : Option Int :=
  if Complete posts then (values posts).min? else none

theorem Complete.mem_values (complete : Complete posts) :
    v ∈ values posts ↔ ∃ i, posts i = some v := by
  rw [values, List.mem_ofFn]
  refine exists_congr fun i => ?_
  obtain ⟨w, here⟩ := Option.isSome_iff_exists.mp (complete i)
  simp [here]

/-- What holds of all values holds of the contribution of each process. -/
theorem Complete.forall_values (complete : Complete posts) :
    (∀ v ∈ values posts, P v) ↔ ∀ i, ∃ v, posts i = some v ∧ P v := by
  constructor
  · intro all i
    obtain ⟨v, here⟩ := Option.isSome_iff_exists.mp (complete i)
    exact ⟨v, here, all v (complete.mem_values.mpr ⟨i, here⟩)⟩
  · intro all v member
    obtain ⟨i, here⟩ := complete.mem_values.mp member
    obtain ⟨w, there, holds⟩ := all i
    exact Option.some.inj (here.symm.trans there) ▸ holds

theorem complete_of_forall (all : ∀ i, ∃ v, posts i = some v ∧ P v) : Complete posts := by
  intro i
  obtain ⟨v, here, -⟩ := all i
  rw [here]
  rfl

/-- The maximum is a contribution that no other exceeds. -/
theorem maximum_eq_some :
    maximum posts = some m ↔ (∃ i, posts i = some m) ∧ ∀ i, ∃ v, posts i = some v ∧ v ≤ m := by
  unfold maximum
  by_cases complete : Complete posts
  · rw [if_pos complete, List.max?_eq_some_iff, complete.mem_values, complete.forall_values]
  · rw [if_neg complete]
    exact iff_of_false nofun fun result => complete (complete_of_forall result.2)

/-- The minimum is a contribution that exceeds no other. -/
theorem minimum_eq_some :
    minimum posts = some m ↔ (∃ i, posts i = some m) ∧ ∀ i, ∃ v, posts i = some v ∧ m ≤ v := by
  unfold minimum
  by_cases complete : Complete posts
  · rw [if_pos complete, List.min?_eq_some_iff, complete.mem_values, complete.forall_values]
  · rw [if_neg complete]
    exact iff_of_false nofun fun result => complete (complete_of_forall result.2)

/-- A maximum that everyone has contributed to stays. -/
theorem maximum_mono (kept : ∀ i v, posts i = some v → more i = some v)
    (here : maximum posts = some m) : maximum more = some m := by
  obtain ⟨⟨i, attained⟩, all⟩ := maximum_eq_some.mp here
  refine maximum_eq_some.mpr ⟨⟨i, kept i m attained⟩, fun j => ?_⟩
  obtain ⟨v, posted, below⟩ := all j
  exact ⟨v, kept j v posted, below⟩

/-- A minimum that everyone has contributed to stays. -/
theorem minimum_mono (kept : ∀ i v, posts i = some v → more i = some v)
    (here : minimum posts = some m) : minimum more = some m := by
  obtain ⟨⟨i, attained⟩, all⟩ := minimum_eq_some.mp here
  refine minimum_eq_some.mpr ⟨⟨i, kept i m attained⟩, fun j => ?_⟩
  obtain ⟨v, posted, above⟩ := all j
  exact ⟨v, kept j v posted, above⟩

end Allreduce
