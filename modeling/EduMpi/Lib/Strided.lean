import Mathlib.Algebra.Ring.Basic
import Mathlib.Algebra.Order.BigOperators.Group.List
import Mathlib.Data.List.Basic
import Mathlib.Tactic.IntervalCases
import Mathlib.Tactic.Ring

/-! Sequences of placed items, moved as a whole and repeated at a fixed stride. -/

namespace Strided

open List

variable {A R : Type*} [CommRing R]

/-- The sequence with every item moved by the same amount. -/
def shift (d : R) (m : List (A × R)) : List (A × R) :=
  m.map fun item => (item.1, item.2 + d)

/-- The sequence `n` times in a row, each repetition `e` further than the one before it. -/
def copies (n : ℕ) (e : R) (m : List (A × R)) : List (A × R) :=
  (List.range n).flatMap fun i : ℕ => shift ((i : R) * e) m

variable {d e : R} {m l : List (A × R)} {n k : ℕ}

@[simp]
theorem shift_nil : shift d ([] : List (A × R)) = [] := rfl

@[simp]
theorem shift_cons (item : A × R) : shift d (item :: m) = (item.1, item.2 + d) :: shift d m := rfl

@[simp]
theorem shift_append : shift d (m ++ l) = shift d m ++ shift d l := by
  simp [shift]

@[simp]
theorem shift_zero : shift (0 : R) m = m := by
  simp [shift]

/-- Two moves are one. -/
@[simp]
theorem shift_shift : shift d (shift e m) = shift (e + d) m := by
  simp [shift, add_assoc]

@[simp]
theorem length_shift : (shift d m).length = m.length := by
  simp [shift]

@[simp]
theorem shift_eq_nil : shift d m = [] ↔ m = [] := by
  simp [shift]

@[simp]
theorem copies_zero : copies 0 e m = [] := rfl

@[simp]
theorem copies_nil : copies n e ([] : List (A × R)) = [] := by
  simp [copies]

@[simp]
theorem copies_one : copies 1 e m = m := by
  simp [copies]

/-- An item of a moved sequence is a moved item. -/
theorem mem_shift {item : A × R} :
    item ∈ shift d m ↔ ∃ other ∈ m, item = (other.1, other.2 + d) := by
  simp [shift, eq_comm]

/-- An item of the repetitions is one of the sequence, moved by some strides. -/
theorem mem_copies {item : A × R} :
    item ∈ copies n e m ↔ ∃ i < n, ∃ other ∈ m, item = (other.1, other.2 + (i : R) * e) := by
  simp [copies, mem_shift]

/-- The last repetition stands behind the others. -/
theorem copies_succ : copies (n + 1) e m = copies n e m ++ shift ((n : R) * e) m := by
  simp [copies, range_succ]

/-- Every repetition is as long as the sequence. -/
@[simp]
theorem length_copies : (copies n e m).length = n * m.length := by
  simp [copies]

/-- Moving the repetitions is repeating what was moved. -/
@[simp]
theorem shift_copies : shift d (copies n e m) = copies n e (shift d m) := by
  induction n with
  | zero => simp
  | succ n ih =>
    rw [copies_succ, copies_succ, shift_append, ih, shift_shift, shift_shift, add_comm]

/-- A repetition splits at every count. -/
theorem copies_add : copies (n + k) e m = copies n e m ++ shift ((n : R) * e) (copies k e m) := by
  induction k with
  | zero => simp
  | succ k ih =>
    -- The last repetition stands behind both parts at the same distance.
    have last : (k : R) * e + n * e = ((n + k : ℕ) : R) * e := by push_cast; ring
    rw [← Nat.add_assoc, copies_succ, ih, copies_succ, shift_append, shift_shift, last,
      append_assoc]

/-- The first repetition stands where the sequence itself does. -/
theorem copies_succ_left : copies (n + 1) e m = m ++ shift e (copies n e m) := by
  rw [Nat.add_comm, copies_add, copies_one, Nat.cast_one, one_mul]

/-- Repeating a repetition at its own length is one longer repetition. -/
theorem copies_mul : copies n ((k : R) * e) (copies k e m) = copies (n * k) e m := by
  induction n with
  | zero => simp
  | succ n ih =>
    have start : (n : R) * (k * e) = ((n * k : ℕ) : R) * e := by push_cast; ring
    rw [copies_succ, ih, Nat.succ_mul, copies_add, start]

/-- A move loses nothing. -/
theorem shift_inj : shift d m = shift d l ↔ m = l := by
  refine ⟨fun same => ?_, fun same => same ▸ rfl⟩
  simpa using congrArg (shift (-d)) same

/-- A repetition keeps its first copies when more are made. -/
theorem take_copies (fewer : k ≤ n) : (copies n e m).take (k * m.length) = copies k e m := by
  obtain ⟨more, rfl⟩ := Nat.exists_eq_add_of_le fewer
  rw [copies_add, take_left' length_copies]

/-- Copies of the same sequence agree only in number and, from two on, in stride. -/
theorem copies_inj {n' : ℕ} {e' : R} (nonempty : m ≠ []) :
    copies n' e' m = copies n e m ↔ n' = n ∧ (2 ≤ n → e' = e) := by
  have positive : 0 < m.length := length_pos_iff.mpr nonempty
  constructor
  · intro same
    have count : n' = n := by
      have lengths : n' * m.length = n * m.length := by
        simpa only [length_copies] using congrArg List.length same
      exact Nat.eq_of_mul_eq_mul_right positive lengths
    subst count
    refine ⟨rfl, fun two => ?_⟩
    -- The second copy starts with the first item moved by the stride.
    obtain ⟨k, rfl⟩ := Nat.exists_eq_add_of_le' two
    obtain ⟨item, rest, rfl⟩ := exists_cons_of_ne_nil nonempty
    rw [copies_succ_left, copies_succ_left, copies_succ_left, copies_succ_left] at same
    have second := append_cancel_left same
    simp only [cons_append, shift_cons, List.cons.injEq, Prod.mk.injEq, true_and] at second
    exact add_left_cancel second.1
  · rintro ⟨rfl, stride⟩
    rcases Nat.lt_or_ge n' 2 with one | two
    · interval_cases n' <;> simp
    · rw [stride two]

/-- Copies at one stride are equal only when what is copied is. -/
theorem copies_left_inj (some : 0 < n) : copies n e m = copies n e l ↔ m = l := by
  refine ⟨fun same => ?_, fun same => same ▸ rfl⟩
  -- The first copies have the same length, and both repetitions start with them.
  have lengths : n * m.length = n * l.length := by
    simpa only [length_copies] using congrArg List.length same
  obtain ⟨k, rfl⟩ := Nat.exists_eq_add_of_lt some
  rw [copies_succ_left, copies_succ_left] at same
  exact (append_inj same (Nat.eq_of_mul_eq_mul_left some lengths)).1

/-- Copies of a unit read as copies of a repetition of it: the number and the stride must fit. -/
theorem copies_regroup {c : ℕ} {s x : R} (nonempty : m ≠ []) (positive : 0 < c) :
    copies k s m = copies n x (copies c s m) ↔ k = n * c ∧ (2 ≤ n → (c : R) * s = x) := by
  have filled : copies c s m ≠ [] := by
    intro empty
    have := congrArg List.length empty
    simp only [length_copies, length_nil, Nat.mul_eq_zero, length_eq_zero_iff] at this
    exact this.elim positive.ne' nonempty
  constructor
  · intro same
    have count : k = n * c := by
      have lengths : k * m.length = n * (c * m.length) := by
        simpa only [length_copies] using congrArg List.length same
      rw [← Nat.mul_assoc] at lengths
      exact Nat.eq_of_mul_eq_mul_right (length_pos_iff.mpr nonempty) lengths
    refine ⟨count, ?_⟩
    rw [count, ← copies_mul] at same
    exact ((copies_inj filled).mp same).2
  · rintro ⟨rfl, stride⟩
    rw [← copies_mul]
    exact (copies_inj filled).mpr ⟨rfl, stride⟩

/-- Lists joined from parts that are never too long are equal only part by part. -/
theorem flatMap_eq_iff {B C : Type*} {parts : List B} {f g : B → List C}
    (short : ∀ part ∈ parts, (f part).length ≤ (g part).length) :
    parts.flatMap f = parts.flatMap g ↔ ∀ part ∈ parts, f part = g part := by
  have bound : ∀ {others : List B}, (∀ part ∈ others, (f part).length ≤ (g part).length) →
      (others.flatMap f).length ≤ (others.flatMap g).length := by
    intro others short
    simp only [length_flatMap]
    exact sum_le_sum short
  refine ⟨fun same => ?_, fun same => flatMap_congr same⟩
  induction parts with
  | nil => simp
  | cons part parts ih =>
    -- A first part that is too short could only be made up for behind it.
    have lengths := congrArg List.length same
    have rest := bound fun other mem => short other (mem_cons_of_mem _ mem)
    have head := short part mem_cons_self
    simp only [flatMap_cons, length_append] at lengths same
    obtain ⟨first, later⟩ := append_inj same (by omega)
    simp only [mem_cons, forall_eq_or_imp]
    exact ⟨first, ih (fun other mem => short other (mem_cons_of_mem _ mem)) later⟩

end Strided
