import Mathlib.Algebra.BigOperators.Group.List.Lemmas
import Mathlib.Algebra.Order.BigOperators.GroupWithZero.List
import Mathlib.Algebra.Order.Ring.Nat
import Mathlib.Data.List.Forall2
import Mathlib.Tactic.Common

/-! Numbers in a mixed radix, most significant digit first. -/

namespace Radix

open List

/-- The number with these digits. -/
def encode : List Nat → List Nat → Nat
  | _ :: dims, digit :: digits => digit * dims.prod + encode dims digits
  | _, _ => 0

/-- The digits of a number. -/
def decode : List Nat → Nat → List Nat
  | [], _ => []
  | _ :: dims, number => number / dims.prod :: decode dims (number % dims.prod)

/-- One digit for each radix, and each below its radix. -/
def Digits (dims digits : List Nat) : Prop := List.Forall₂ (· < ·) digits dims

/-- No radix is zero. -/
def Positive (dims : List Nat) : Prop := ∀ dim ∈ dims, 0 < dim

variable {dims digits : List Nat} {dim number i : Nat}

theorem Positive.head (positive : Positive (dim :: dims)) : 0 < dim :=
  positive dim mem_cons_self

theorem Positive.tail (positive : Positive (dim :: dims)) : Positive dims :=
  fun other member => positive other (mem_cons_of_mem dim member)

theorem Positive.prod_pos (positive : Positive dims) : 0 < dims.prod := List.prod_pos positive

/-- A radix is at most the count of all numbers. -/
theorem Positive.le_prod (positive : Positive dims) (member : dim ∈ dims) : dim ≤ dims.prod :=
  Nat.le_of_dvd positive.prod_pos (dvd_prod member)

theorem Positive.drop (positive : Positive dims) (i : Nat) : Positive (dims.drop i) :=
  fun dim member => positive dim (mem_of_mem_drop member)

/-- There is no digit below a zero radix. -/
theorem Digits.positive (within : Digits dims digits) : Positive dims := by
  induction within with
  | nil => exact fun dim member => nomatch member
  | cons less _ ih =>
    intro dim member
    rcases mem_cons.mp member with rfl | member
    · exact Nat.zero_lt_of_lt less
    · exact ih dim member

/-- The digits make a number below the product of the radices. -/
theorem encode_lt (within : Digits dims digits) : encode dims digits < dims.prod := by
  induction within with
  | nil => exact Nat.one_pos
  | @cons digit dim digits dims less _ ih =>
    -- The digit leaves room for one more block of the lower digits.
    have room : (digit + 1) * dims.prod ≤ dim * dims.prod := Nat.mul_le_mul_right _ less
    rw [Nat.succ_mul] at room
    rw [encode, prod_cons]
    omega

/-- The digits of such a number are below their radices. -/
theorem decode_digits (positive : Positive dims) (small : number < dims.prod) :
    Digits dims (decode dims number) := by
  induction dims generalizing number with
  | nil => exact .nil
  | cons dim dims ih =>
    have lower := positive.tail.prod_pos
    refine .cons ?_ (ih positive.tail (Nat.mod_lt number lower))
    exact Nat.div_lt_of_lt_mul (by rwa [Nat.mul_comm])

/-- A number is that of its digits. -/
theorem encode_decode (positive : Positive dims) (small : number < dims.prod) :
    encode dims (decode dims number) = number := by
  induction dims generalizing number with
  | nil =>
    exact (Nat.lt_one_iff.mp small).symm
  | cons dim dims ih =>
    rw [decode, encode, ih positive.tail (Nat.mod_lt number positive.tail.prod_pos),
      Nat.div_add_mod']

/-- Digits are those of their number. -/
theorem decode_encode (within : Digits dims digits) :
    decode dims (encode dims digits) = digits := by
  induction within with
  | nil => rfl
  | @cons digit dim digits dims _ rest ih =>
    have small := encode_lt rest
    have lower : 0 < dims.prod := Nat.zero_lt_of_lt small
    rw [encode, decode, Nat.mul_comm, Nat.mul_add_div lower, Nat.div_eq_of_lt small, Nat.add_zero,
      Nat.mul_add_mod, Nat.mod_eq_of_lt small, ih]

/-- Different digits make different numbers. -/
theorem encode_injective {others : List Nat} (within : Digits dims digits)
    (within' : Digits dims others) (same : encode dims digits = encode dims others) :
    digits = others := by
  rw [← decode_encode within, same, decode_encode within']

/-- A number has one digit for each radix. -/
@[simp]
theorem length_decode (number : Nat) : (decode dims number).length = dims.length := by
  induction dims generalizing number with
  | nil => rfl
  | cons dim dims ih => rw [decode, length_cons, ih, length_cons]

/-- One digit, by what the lower digits can count. -/
theorem getElem?_decode (positive : Positive dims) (inside : i < dims.length)
    (small : number < dims.prod) :
    (decode dims number)[i]? = some (number % (dims.drop i).prod / (dims.drop (i + 1)).prod) := by
  induction dims generalizing i number with
  | nil => exact absurd inside (Nat.not_lt_zero i)
  | cons dim dims ih =>
    have lower := positive.tail.prod_pos
    cases i with
    | zero => simp only [decode, List.getElem?_cons_zero, drop_zero, drop_succ_cons,
        Nat.mod_eq_of_lt small]
    | succ i =>
      have divides : (dims.drop i).prod ∣ dims.prod := by
        rw [← prod_take_mul_prod_drop dims i]
        exact Nat.dvd_mul_left _ _
      simp only [decode, List.getElem?_cons_succ, drop_succ_cons]
      rw [ih positive.tail (Nat.lt_of_succ_lt_succ inside) (Nat.mod_lt number lower),
        Nat.mod_mod_of_dvd number divides]

/-- Changing one digit moves the number by so many blocks of the lower digits. -/
theorem encode_set {old new : Nat} (length : digits.length = dims.length)
    (here : digits[i]? = some old) :
    encode dims (digits.set i new) + old * (dims.drop (i + 1)).prod
      = encode dims digits + new * (dims.drop (i + 1)).prod := by
  induction digits generalizing i dims with
  | nil => cases here
  | cons digit digits ih =>
    cases dims with
    | nil => cases length
    | cons dim dims =>
      cases i with
      | zero =>
        obtain rfl : digit = old := Option.some.inj here
        simp only [set_cons_zero, encode, drop_succ_cons, drop_zero]
        omega
      | succ i =>
        have rest := ih (Nat.succ.inj length) here
        simp only [set_cons_succ, encode, drop_succ_cons]
        omega

theorem Digits.lt {digit : Nat} (within : Digits dims digits) (here : dims[i]? = some dim)
    (there : digits[i]? = some digit) : digit < dim := by
  obtain ⟨inside, rfl⟩ := List.getElem?_eq_some_iff.mp here
  obtain ⟨listed, rfl⟩ := List.getElem?_eq_some_iff.mp there
  exact within.get listed inside

/-- One digit may be replaced by another below its radix. -/
theorem Digits.set {new : Nat} (within : Digits dims digits) (here : dims[i]? = some dim)
    (less : new < dim) : Digits dims (digits.set i new) := by
  induction within generalizing i with
  | nil => cases here
  | @cons digit dim' digits dims first rest ih =>
    cases i with
    | zero =>
      obtain rfl : dim' = dim := Option.some.inj here
      exact .cons less rest
    | succ i => exact .cons first (ih here)

section Selection

variable {α : Type} {choice : List Bool}

/-- The entries at the chosen places. -/
def select : List Bool → List α → List α
  | true :: choice, x :: l => x :: select choice l
  | false :: choice, _ :: l => select choice l
  | _, _ => []

/-- The entries at the other places. -/
def reject (choice : List Bool) (l : List α) : List α := select (choice.map not) l

theorem select_cons (keep : Bool) (x : α) (l : List α) :
    select (keep :: choice) (x :: l) = if keep then x :: select choice l else select choice l := by
  cases keep <;> rfl

theorem reject_cons (keep : Bool) (x : α) (l : List α) :
    reject (keep :: choice) (x :: l) = if keep then reject choice l else x :: reject choice l := by
  cases keep <;> rfl

theorem map_select {β : Type} (f : α → β) (l : List α) :
    select choice (l.map f) = (select choice l).map f := by
  induction choice generalizing l with
  | nil => rfl
  | cons keep choice ih =>
    cases l with
    | nil => cases keep <;> rfl
    | cons x l => cases keep <;> simp [select, ih]

/-- Nothing chosen leaves everything. -/
theorem reject_of_select {l : List α} (length : choice.length = l.length)
    (nothing : select choice l = []) : reject choice l = l := by
  induction choice generalizing l with
  | nil =>
    cases l with
    | nil => rfl
    | cons x l => cases length
  | cons keep choice ih =>
    cases l with
    | nil => cases length
    | cons x l =>
      cases keep with
      | true => cases nothing
      | false => exact congrArg (x :: ·) (ih (Nat.succ.inj length) nothing)

/-- A list is determined by its chosen and its other entries. -/
theorem select_injective {l l' : List α} (length : choice.length = l.length)
    (length' : choice.length = l'.length) (chosen : select choice l = select choice l')
    (others : reject choice l = reject choice l') : l = l' := by
  induction choice generalizing l l' with
  | nil =>
    rw [eq_nil_of_length_eq_zero length.symm, eq_nil_of_length_eq_zero length'.symm]
  | cons keep choice ih =>
    cases l with
    | nil => cases length
    | cons x l =>
      cases l' with
      | nil => cases length'
      | cons x' l' =>
        have rest := @ih l l' (Nat.succ.inj length) (Nat.succ.inj length')
        -- The first entry is on one of the two sides.
        cases keep with
        | true =>
          obtain ⟨rfl, tails⟩ := List.cons.inj chosen
          rw [rest tails others]
        | false =>
          obtain ⟨rfl, tails⟩ := List.cons.inj others
          rw [rest chosen tails]

theorem prod_select_mul (length : choice.length = dims.length) :
    (select choice dims).prod * (reject choice dims).prod = dims.prod := by
  induction choice generalizing dims with
  | nil => rw [eq_nil_of_length_eq_zero length.symm]; rfl
  | cons keep choice ih =>
    cases dims with
    | nil => cases length
    | cons dim dims =>
      have rest := ih (Nat.succ.inj length)
      rw [reject_cons, prod_cons, ← rest]
      cases keep with
      | true => exact (congrArg (· * _) prod_cons).trans (Nat.mul_assoc _ _ _)
      | false => exact (congrArg (_ * ·) prod_cons).trans (Nat.mul_left_comm _ _ _)

theorem Digits.select (within : Digits dims digits) (choice : List Bool) :
    Digits (select choice dims) (select choice digits) := by
  induction within generalizing choice with
  | nil => cases choice with
    | nil => exact .nil
    | cons keep choice => cases keep <;> exact .nil
  | cons less _ ih => cases choice with
    | nil => exact .nil
    | cons keep choice =>
      cases keep with
      | true => exact .cons less (ih choice)
      | false => exact ih choice

theorem Digits.reject (within : Digits dims digits) (choice : List Bool) :
    Digits (reject choice dims) (reject choice digits) :=
  within.select (choice.map not)

/-- Digits for the chosen and for the other places can be put together. -/
theorem exists_digits_select {chosen others : List Nat} (length : choice.length = dims.length)
    (within : Digits (Radix.select choice dims) chosen)
    (beyond : Digits (Radix.reject choice dims) others) :
    ∃ digits, Digits dims digits ∧ Radix.select choice digits = chosen ∧
      Radix.reject choice digits = others := by
  induction choice generalizing dims chosen others with
  | nil =>
    obtain rfl := eq_nil_of_length_eq_zero length.symm
    cases within
    cases beyond
    exact ⟨[], .nil, rfl, rfl⟩
  | cons keep choice ih =>
    cases dims with
    | nil => cases length
    | cons dim dims =>
      cases keep with
      | true =>
        cases within with
        | @cons digit _ chosen _ less within =>
          obtain ⟨digits, all, rfl, rfl⟩ := ih (Nat.succ.inj length) within beyond
          exact ⟨digit :: digits, .cons less all, rfl, rfl⟩
      | false =>
        cases beyond with
        | @cons digit _ others _ less beyond =>
          obtain ⟨digits, all, rfl, rfl⟩ := ih (Nat.succ.inj length) within beyond
          exact ⟨digit :: digits, .cons less all, rfl, rfl⟩

end Selection

end Radix
