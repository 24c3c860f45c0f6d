import Mathlib.Algebra.BigOperators.Group.List.Basic
import Mathlib.Algebra.Ring.Nat
import Mathlib.Tactic.Common

/-! Where a length cuts a list of sizes: between two of them, or inside one. -/

namespace Cuts

open List

variable {xs ys zs : List Nat} {n k z : Nat}

/-- The number of leading sizes that make up a length, if it does not end inside one of them. -/
def cut : List Nat → Nat → Option Nat
  | _, 0 => some 0
  | [], _ + 1 => none
  | z :: zs, n + 1 => if z ≤ n + 1 then (cut zs (n + 1 - z)).map (· + 1) else none

/-- No size is zero. -/
def Positive (zs : List Nat) : Prop := ∀ z ∈ zs, 0 < z

theorem Positive.tail (positive : Positive (z :: zs)) : Positive zs :=
  fun y member => positive y (mem_cons_of_mem z member)

@[simp]
theorem cut_zero : cut zs 0 = some 0 := by
  cases zs <;> rfl

theorem cut_cons (some_ : n ≠ 0) :
    cut (z :: zs) n = if z ≤ n then (cut zs (n - z)).map (· + 1) else none := by
  cases n with
  | zero => exact absurd rfl some_
  | succ n => rfl

/-- A cut is the number of leading sizes with that sum. -/
theorem cut_eq_some (positive : Positive zs) :
    cut zs n = some k ↔ k ≤ zs.length ∧ (zs.take k).sum = n := by
  induction zs generalizing n k with
  | nil =>
    cases n with
    | zero => simp [eq_comm]
    | succ n => simp [cut]
  | cons z zs ih =>
    have first := positive z mem_cons_self
    by_cases zero : n = 0
    · -- Nothing is taken for the length zero, since every size counts.
      subst zero
      cases k with
      | zero => simp
      | succ k => simp; omega
    · rw [cut_cons zero]
      cases k with
      | zero =>
        simp only [Nat.zero_le, true_and]
        refine iff_of_false ?_ (Ne.symm zero)
        split_ifs <;> simp
      | succ k =>
        have step : (cut zs (n - z)).map (· + 1) = some (k + 1) ↔ cut zs (n - z) = some k := by
          simp
        simp only [length_cons, take_succ_cons, sum_cons]
        by_cases fits : z ≤ n
        · rw [if_pos fits, step, ih positive.tail]
          omega
        · rw [if_neg fits]
          exact iff_of_false nofun (by omega)

/-- A cut before the end leaves sizes behind. -/
theorem cut_lt_length (positive : Positive zs) (less : n < zs.sum) (cuts : cut zs n = some k) :
    k < zs.length := by
  obtain ⟨few, sum⟩ := (cut_eq_some positive).mp cuts
  refine Nat.lt_of_le_of_ne few fun all => ?_
  rw [all, take_length] at sum
  omega

/-- A length inside the front part is cut there. -/
theorem cut_append_of_le (fits : n ≤ xs.sum) : cut (xs ++ ys) n = cut xs n := by
  induction xs generalizing n with
  | nil =>
    obtain rfl : n = 0 := by simpa using fits
    rw [cut_zero, cut_zero]
  | cons z xs ih =>
    by_cases zero : n = 0
    · rw [zero, cut_zero, cut_zero]
    · rw [sum_cons] at fits
      rw [cons_append, cut_cons zero, cut_cons zero, ih (by omega)]

/-- A length behind the front part is cut in the rest. -/
theorem cut_append_of_ge (positive : Positive xs) (behind : xs.sum ≤ n) :
    cut (xs ++ ys) n = (cut ys (n - xs.sum)).map (· + xs.length) := by
  induction xs generalizing n with
  | nil => simp
  | cons z xs ih =>
    have first := positive z mem_cons_self
    rw [sum_cons] at behind ⊢
    rw [cons_append, cut_cons (by omega), if_pos (by omega), ih positive.tail (by omega),
      Option.map_map, Nat.sub_sub]
    congr 1

/-- A length inside equal sizes is cut if it is a multiple. -/
theorem cut_replicate (some_ : 0 < z) (fits : n ≤ k * z) :
    cut (List.replicate k z) n = if z ∣ n then some (n / z) else none := by
  have positive : Positive (List.replicate k z) := by
    intro y member
    rw [eq_of_mem_replicate member]
    exact some_
  by_cases multiple : z ∣ n
  · rw [if_pos multiple, cut_eq_some positive]
    have below : n / z ≤ k := Nat.div_le_of_le_mul (by rwa [Nat.mul_comm] at fits)
    simp only [length_replicate, take_replicate, sum_replicate_nat, Nat.min_eq_left below]
    exact ⟨below, Nat.div_mul_cancel multiple⟩
  · rw [if_neg multiple, Option.eq_none_iff_forall_ne_some]
    intro m here
    obtain ⟨below, sum⟩ := (cut_eq_some positive).mp here
    simp only [take_replicate, sum_replicate_nat] at sum
    exact multiple (sum ▸ Nat.dvd_mul_left z _)

/-- A length that is not cut ends inside a size. -/
theorem cut_eq_none (positive : Positive zs) (fits : n ≤ zs.sum) :
    cut zs n = none ↔ ∃ k z, zs[k]? = some z ∧ (zs.take k).sum < n ∧ n < (zs.take k).sum + z := by
  induction zs generalizing n with
  | nil =>
    obtain rfl : n = 0 := by simpa using fits
    simp
  | cons z zs ih =>
    rw [sum_cons] at fits
    by_cases zero : n = 0
    · simp [zero]
    rw [cut_cons zero]
    by_cases first : z ≤ n
    · -- The place is in the rest, one further.
      rw [if_pos first, Option.map_eq_none_iff, ih positive.tail (by omega)]
      constructor
      · rintro ⟨k, y, here, low, high⟩
        exact ⟨k + 1, y, here, by simp; omega, by simp; omega⟩
      · rintro ⟨k, y, here, low, high⟩
        cases k with
        | zero =>
          simp only [List.getElem?_cons_zero, Option.some.injEq] at here
          simp only [take_zero, sum_nil] at high
          omega
        | succ k =>
          simp only [take_succ_cons, sum_cons] at low high
          exact ⟨k, y, here, by omega, by omega⟩
    · rw [if_neg first]
      refine iff_of_true rfl ⟨0, z, rfl, ?_, ?_⟩
      · simp
        omega
      · simp
        omega

section Repeated

/-- Copies of the sizes, one behind the other. -/
def repeated (c : Nat) (zs : List Nat) : List Nat := (List.replicate c zs).flatten

theorem repeated_succ (c : Nat) : repeated (c + 1) zs = zs ++ repeated c zs := by
  rw [repeated, replicate_succ, flatten_cons, repeated]

theorem repeated_add (c d : Nat) : repeated (c + d) zs = repeated c zs ++ repeated d zs := by
  rw [repeated, replicate_add, flatten_append, repeated, repeated]

@[simp]
theorem length_repeated (c : Nat) : (repeated c zs).length = c * zs.length := by
  rw [repeated, length_flatten, map_replicate, sum_replicate_nat]

@[simp]
theorem sum_repeated (c : Nat) : (repeated c zs).sum = c * zs.sum := by
  rw [repeated, sum_flatten, map_replicate, sum_replicate_nat]

theorem Positive.repeated (positive : Positive zs) (c : Nat) : Positive (Cuts.repeated c zs) := by
  intro z member
  obtain ⟨copy, listed, inside⟩ := mem_flatten.mp member
  exact positive z (eq_of_mem_replicate listed ▸ inside)

/-- Of copies of the sizes, whole copies are passed before the cut. -/
theorem cut_repeated (positive : Positive zs) (filled : 0 < zs.sum) {c : Nat}
    (enough : n < c * zs.sum) :
    cut (repeated c zs) n = (cut zs (n % zs.sum)).map (· + n / zs.sum * zs.length) := by
  induction c generalizing n with
  | zero => omega
  | succ c ih =>
    rw [repeated_succ]
    by_cases inside : n < zs.sum
    · rw [cut_append_of_le (Nat.le_of_lt inside), Nat.mod_eq_of_lt inside, Nat.div_eq_of_lt inside]
      simp
    -- One copy less of both.
    rw [Nat.succ_mul] at enough
    have behind : zs.sum ≤ n := by omega
    have copies : n / zs.sum = (n - zs.sum) / zs.sum + 1 := Nat.div_eq_sub_div filled behind
    rw [cut_append_of_ge positive behind, ih (by omega), Option.map_map,
      Nat.mod_eq_sub_mod behind, copies]
    congr 1
    funext m
    simp only [Function.comp_apply, Nat.succ_mul]
    omega

/-- The first so many of the sizes, repeated as often as needed, have a sum. -/
def Leads (zs : List Nat) (n k : Nat) : Prop :=
  ∃ c, k ≤ c * zs.length ∧ ((repeated c zs).take k).sum = n

/-- A length ends inside one of the repeated sizes. -/
def Inside (zs : List Nat) (n : Nat) : Prop :=
  ∃ c k z, (repeated c zs)[k]? = some z ∧ ((repeated c zs).take k).sum < n ∧
    n < ((repeated c zs).take k).sum + z

/-- Further copies change nothing of what is led. -/
theorem take_repeated_add (c d : Nat) (few : k ≤ c * zs.length) :
    (repeated (c + d) zs).take k = (repeated c zs).take k := by
  rw [repeated_add, take_append_of_le_length (by rwa [length_repeated])]

/-- The first so many sizes are whole copies and the front of one copy. -/
theorem sum_take_repeated {c : Nat} (filled : 0 < zs.length) (enough : k ≤ c * zs.length) :
    ((repeated c zs).take k).sum = k / zs.length * zs.sum + (zs.take (k % zs.length)).sum := by
  induction c generalizing k with
  | zero =>
    obtain rfl : k = 0 := by omega
    simp
  | succ c ih =>
    rw [repeated_succ]
    by_cases inside : k < zs.length
    · rw [take_append_of_le_length (Nat.le_of_lt inside), Nat.div_eq_of_lt inside,
        Nat.mod_eq_of_lt inside, Nat.zero_mul, Nat.zero_add]
    -- One copy less of both.
    rw [Nat.succ_mul] at enough
    have behind : zs.length ≤ k := by omega
    have copies : k / zs.length = (k - zs.length) / zs.length + 1 :=
      Nat.div_eq_sub_div filled behind
    rw [take_append, take_of_length_le behind, sum_append, ih (by omega),
      Nat.mod_eq_sub_mod behind, copies, Nat.succ_mul]
    omega

/-- The bytes of the first so many sizes. -/
theorem leads_iff_sum (filled : 0 < zs.length) :
    Leads zs n k ↔ n = k / zs.length * zs.sum + (zs.take (k % zs.length)).sum := by
  constructor
  · rintro ⟨c, few, rfl⟩
    exact sum_take_repeated filled few
  · rintro rfl
    have enough : k ≤ k * zs.length := Nat.le_mul_of_pos_right k filled
    exact ⟨k, enough, sum_take_repeated filled enough⟩

/-- There are no more sizes than bytes. -/
theorem Leads.le (positive : Positive zs) (leads : Leads zs n k) : k ≤ n := by
  obtain ⟨c, few, rfl⟩ := leads
  have front : Positive ((repeated c zs).take k) := by
    intro z member
    exact positive.repeated c z (mem_of_mem_take member)
  have less := length_le_sum_of_one_le _ front
  rwa [length_take_of_le (by rwa [length_repeated])] at less

/-- Fewer bytes are led by fewer sizes. -/
theorem Leads.lt {n' k' : Nat} (leads : Leads zs n k) (leads' : Leads zs n' k') (less : n < n') :
    k < k' := by
  obtain ⟨c, few, rfl⟩ := leads
  obtain ⟨c', few', rfl⟩ := leads'
  refine Nat.lt_of_not_le fun more => ?_
  -- Both are fronts of the same copies, and the longer front has the larger sum.
  obtain ⟨d, rfl⟩ := Nat.exists_eq_add_of_le more
  rw [← take_repeated_add c c' few, take_add, sum_append, Nat.add_comm c c',
    take_repeated_add c' c few'] at less
  omega

/-- One copy more than whole ones holds a length, whatever stands before. -/
theorem lt_enough (filled : 0 < zs.sum) (c : Nat) : n < (c + (n / zs.sum + 1)) * zs.sum := by
  have := Nat.lt_div_mul_add (a := n) filled
  rw [Nat.add_mul, Nat.succ_mul]
  omega

/-- Leading sizes are whole copies and a cut of one copy. -/
theorem leads_iff (positive : Positive zs) (filled : 0 < zs.sum) :
    Leads zs n k ↔ ∃ m, cut zs (n % zs.sum) = some m ∧ k = m + n / zs.sum * zs.length := by
  have enough := @lt_enough zs n filled
  constructor
  · rintro ⟨c, few, sum⟩
    have here : cut (repeated (c + (n / zs.sum + 1)) zs) n = some k := by
      rw [cut_eq_some (positive.repeated _), length_repeated, take_repeated_add _ _ few]
      exact ⟨Nat.le_trans few (Nat.mul_le_mul_right _ (Nat.le_add_right _ _)), sum⟩
    rw [cut_repeated positive filled (enough c), Option.map_eq_some_iff] at here
    obtain ⟨m, found, rfl⟩ := here
    exact ⟨m, found, rfl⟩
  · rintro ⟨m, found, rfl⟩
    have here : cut (repeated (0 + (n / zs.sum + 1)) zs) n = some (m + n / zs.sum * zs.length) := by
      rw [cut_repeated positive filled (enough 0), found]
      rfl
    rw [cut_eq_some (positive.repeated _), length_repeated] at here
    exact ⟨_, here⟩

/-- A length ends inside a size exactly when one copy is not cut. -/
theorem inside_iff (positive : Positive zs) (filled : 0 < zs.sum) :
    Inside zs n ↔ cut zs (n % zs.sum) = none := by
  have enough := @lt_enough zs n filled
  have none_iff (c : Nat) : cut zs (n % zs.sum) = none ↔
      cut (repeated (c + (n / zs.sum + 1)) zs) n = none := by
    rw [cut_repeated positive filled (enough c), Option.map_eq_none_iff]
  constructor
  · rintro ⟨c, k, z, here, low, high⟩
    have inside := (List.getElem?_eq_some_iff.mp here).1
    rw [none_iff c, cut_eq_none (positive.repeated _) (by simpa using Nat.le_of_lt (enough c))]
    refine ⟨k, z, ?_, ?_⟩
    · rw [repeated_add, List.getElem?_append_left inside]
      exact here
    · rw [length_repeated] at inside
      rw [take_repeated_add _ _ (Nat.le_of_lt inside)]
      exact ⟨low, high⟩
  · intro none
    have fits : n ≤ (repeated (0 + (n / zs.sum + 1)) zs).sum := by
      simpa using Nat.le_of_lt (enough 0)
    rw [none_iff 0, cut_eq_none (positive.repeated _) fits] at none
    exact ⟨_, none⟩

end Repeated

end Cuts
