import EduMpi.Topo.CartLaws
import EduMpi.Topo.Dims
import Mathlib.Algebra.Order.BigOperators.GroupWithZero.List
import Mathlib.Algebra.Order.Ring.Int

/-! The dimensions that are chosen multiply to the number of nodes. -/

namespace EduMpi.Topo

open Radix List

section Factors

variable {d num turns : Nat}

/-- What is taken out and what is left make up the number. -/
theorem divideOut_prod (d turns num : Nat) :
    (divideOut d turns num).1.prod * (divideOut d turns num).2 = num := by
  induction turns generalizing num with
  | zero => exact Nat.one_mul num
  | succ turns ih =>
    rw [divideOut]
    split
    · rename_i divides
      rw [prod_cons, Nat.mul_assoc, ih, Nat.mul_div_cancel' (Nat.dvd_of_mod_eq_zero divides)]
    · exact Nat.one_mul num

theorem oddFactors_prod (candidates : List Nat) (num : Nat) :
    (oddFactors candidates num).1.prod * (oddFactors candidates num).2 = num := by
  induction candidates generalizing num with
  | nil => exact Nat.one_mul num
  | cons d candidates ih =>
    rw [oddFactors]
    split
    · rw [prod_append, Nat.mul_assoc, ih, divideOut_prod]
    · exact Nat.one_mul num

/-- The factors of a number multiply to it. -/
theorem getfactors_prod (positive : 0 < num) : (getfactors num).prod = num := by
  unfold getfactors
  split
  · exact (by omega : 1 = num)
  have odds := oddFactors_prod (List.range' 3 ((ceilSqrt num - 1) / 2) 2) (divideOut 2 num num).2
  have twos := divideOut_prod 2 num num
  -- What is left over is a factor unless it is one.
  have last : ∀ rest : Nat, (if rest ≠ 1 then [rest] else []).prod = rest := by
    intro rest
    split <;> simp_all
  rw [prod_append, prod_append, last, Nat.mul_assoc, odds, twos]

end Factors

section Assign

variable {bins : List Nat} {f : Nat}

theorem smallestBin_lt {pmin least i : Nat} (before : pmin < i) :
    smallestBin pmin least i bins < i + bins.length := by
  induction bins generalizing pmin least i with
  | nil => exact before
  | cons bin bins ih =>
    rw [smallestBin, length_cons]
    split
    · have := @ih i bin (i + 1) (by omega)
      omega
    · have := @ih pmin least (i + 1) (by omega)
      omega

theorem prod_modify {i : Nat} (inside : i < bins.length) :
    (bins.modify i (· * f)).prod = bins.prod * f := by
  induction bins generalizing i with
  | nil => exact absurd inside (Nat.not_lt_zero i)
  | cons bin bins ih =>
    cases i with
    | zero => rw [modify_zero_cons, prod_cons, prod_cons, Nat.mul_right_comm]
    | succ i =>
      rw [modify_succ_cons, prod_cons, ih (Nat.lt_of_succ_lt_succ inside), prod_cons, Nat.mul_assoc]

theorem length_assignFactor : (assignFactor bins f).length = bins.length := by
  cases bins with
  | nil => rfl
  | cons bin bins => rw [assignFactor, length_modify]

theorem prod_assignFactor (some_ : bins ≠ []) : (assignFactor bins f).prod = bins.prod * f := by
  cases bins with
  | nil => exact absurd rfl some_
  | cons bin bins =>
    have inside := @smallestBin_lt bins 0 bin 1 Nat.one_pos
    apply prod_modify
    rw [length_cons]
    omega

/-- The bins hold all factors. -/
theorem foldl_assignFactor (factors : List Nat) (some_ : bins ≠ []) :
    (factors.foldl assignFactor bins).prod = bins.prod * factors.prod ∧
      (factors.foldl assignFactor bins).length = bins.length := by
  induction factors generalizing bins with
  | nil => exact ⟨(Nat.mul_one _).symm, rfl⟩
  | cons f factors ih =>
    have length := @length_assignFactor bins f
    have still : assignFactor bins f ≠ [] := by
      rw [← length_pos_iff, length, length_pos_iff]
      exact some_
    obtain ⟨product, count⟩ := ih still
    rw [foldl_cons, product, count, prod_assignFactor some_, Nat.mul_assoc]
    exact ⟨rfl, length⟩

end Assign

section Order

variable {bins : List Nat}

/-- A pass only exchanges, and brings the largest bin to the front. -/
theorem exchangePass_spec (front : Nat) (bins : List Nat) :
    ((exchangePass front bins).1 :: (exchangePass front bins).2).Perm (front :: bins) ∧
      ∀ bin ∈ (exchangePass front bins).2, bin ≤ (exchangePass front bins).1 := by
  induction bins generalizing front with
  | nil => exact ⟨.refl _, fun bin member => nomatch member⟩
  | cons bin bins ih =>
    -- The new front is at most the largest of the rest.
    have front_le : ∀ front, front ≤ (exchangePass front bins).1 := by
      intro front
      obtain ⟨perm, most⟩ := ih front
      rcases mem_cons.mp (perm.mem_iff.mpr mem_cons_self) with same | member
      · exact same.le
      · exact most front member
    rw [exchangePass]
    split
    · -- The bin and the front change places.
      refine ⟨(List.Perm.swap _ _ _).trans ((ih bin).1.cons front),
        forall_mem_cons.mpr ⟨?_, (ih bin).2⟩⟩
      have := front_le bin
      dsimp only
      omega
    · refine ⟨(List.Perm.swap _ _ _).trans (((ih front).1.cons bin).trans (.swap _ _ _)),
        forall_mem_cons.mpr ⟨?_, (ih front).2⟩⟩
      have := front_le front
      dsimp only
      omega

theorem sortBins_perm (turns : Nat) (bins : List Nat) : (sortBins turns bins).Perm bins := by
  induction turns generalizing bins with
  | zero => cases bins <;> exact .refl _
  | succ turns ih =>
    cases bins with
    | nil => exact .refl _
    | cons bin bins => exact ((ih _).cons _).trans (exchangePass_spec bin bins).1

/-- One turn less than there are bins sorts them in decreasing order. -/
theorem sortBins_sorted {turns : Nat} (enough : bins.length ≤ turns + 1) :
    (sortBins turns bins).Pairwise (· ≥ ·) := by
  induction turns generalizing bins with
  | zero =>
    match bins, enough with
    | [], _ => exact .nil
    | [bin], _ => exact pairwise_singleton _ bin
  | succ turns ih =>
    cases bins with
    | nil => exact .nil
    | cons bin bins =>
      obtain ⟨perm, most⟩ := exchangePass_spec bin bins
      have length := perm.length_eq
      simp only [length_cons] at length enough
      refine .cons (fun other member => ?_) (ih (by omega))
      exact most other ((sortBins_perm turns _).mem_iff.mp member)

/-- The assigned numbers decrease and multiply to the product of the factors. -/
theorem assignnodes_spec {ndim : Nat} (positive : 0 < ndim) (factors : List Nat) :
    (assignnodes ndim factors).length = ndim ∧ (assignnodes ndim factors).prod = factors.prod ∧
      (assignnodes ndim factors).Pairwise (· ≥ ·) := by
  have some_ : List.replicate ndim 1 ≠ [] := by
    rw [← length_pos_iff, length_replicate]
    exact positive
  obtain ⟨product, count⟩ := foldl_assignFactor factors.reverse some_
  rw [length_replicate] at count
  have perm := sortBins_perm (ndim - 1) (factors.reverse.foldl assignFactor (List.replicate ndim 1))
  refine ⟨perm.length_eq.trans count, ?_, sortBins_sorted (by omega)⟩
  rw [assignnodes, perm.prod_eq, product, prod_replicate, Nat.one_pow, Nat.one_mul, prod_reverse]

end Order

/-- The dimensions that were given. -/
def given (dims : List Int) : List Int := dims.filter (· ≠ 0)

/-- The entries that were filled in. -/
def filledIn (dims filled : List Int) : List Int := select (dims.map (· == 0)) filled

section Fill

variable {dims : List Int} {procs : List Nat} {nnodes : Int}

theorem given_zero (dims : List Int) : given (0 :: dims) = given dims :=
  filter_cons_of_neg (by simp)

theorem given_cons {dim : Int} (set_ : dim ≠ 0) (dims : List Int) :
    given (dim :: dims) = dim :: given dims :=
  filter_cons_of_pos (by simpa using set_)

/-- Given dimensions stay, the others take the numbers in their order. -/
theorem fillDims_spec (length : procs.length = dims.count 0) :
    List.Forall₂ (fun dim entry => dim ≠ 0 → entry = dim) dims (fillDims dims procs) ∧
      filledIn dims (fillDims dims procs) = ints procs ∧
      (fillDims dims procs).prod = (given dims).prod * (procs.prod : Nat) := by
  induction dims generalizing procs with
  | nil =>
    obtain rfl := eq_nil_of_length_eq_zero length
    exact ⟨.nil, rfl, rfl⟩
  | cons dim dims ih =>
    rw [fillDims]
    by_cases open_ : dim = 0
    · -- An open dimension takes the next number.
      subst open_
      rw [count_cons_self] at length
      cases procs with
      | nil => cases length
      | cons number procs =>
        obtain ⟨same, entries, product⟩ := ih (Nat.succ.inj length)
        refine ⟨.cons (fun other => absurd rfl other) same, congrArg (_ :: ·) entries, ?_⟩
        rw [if_pos rfl, headD_cons, tail_cons, prod_cons, product, prod_cons,
          Int.natCast_mul, Int.mul_left_comm, given_zero]
    · rw [count_cons_of_ne open_] at length
      obtain ⟨same, entries, product⟩ := ih length
      rw [if_neg open_]
      refine ⟨.cons (fun _ => rfl) same, ?_, ?_⟩
      · rw [filledIn, map_cons, select_cons, if_neg (by simpa using open_)]
        exact entries
      · rw [prod_cons, product, given_cons open_, prod_cons, Int.mul_assoc]

/-- Filling with ones is a case of it. -/
theorem map_eq_fillDims (dims : List Int) :
    (dims.map fun dim => if dim = 0 then 1 else dim)
      = fillDims dims (List.replicate (dims.count 0) 1) := by
  induction dims with
  | nil => rfl
  | cons dim dims ih =>
    rw [map_cons, fillDims, ih]
    by_cases open_ : dim = 0
    · subst open_
      rw [if_pos rfl, count_cons_self, replicate_succ]
      rfl
    · rw [if_neg open_, if_neg open_, count_cons_of_ne open_]

/-- Without open dimensions there is nothing to fill. -/
theorem fillDims_nil (closed : 0 ∉ dims) : fillDims dims [] = dims := by
  induction dims with
  | nil => rfl
  | cons dim dims ih =>
    rw [mem_cons, not_or] at closed
    rw [fillDims, if_neg (Ne.symm closed.1), ih closed.2]

/-- One given dimension that does not divide the number of nodes is refused. -/
theorem freeLoop_error {dim freeprocs : Int} {freedims : Nat} (member : dim ∈ dims)
    (given : dim ≠ 0) (divides : ¬ dim ∣ nnodes) :
    freeLoop nnodes dims freeprocs freedims = .error .dims := by
  induction dims generalizing freeprocs freedims with
  | nil => cases member
  | cons first dims ih =>
    rw [freeLoop]
    rcases mem_cons.mp member with rfl | member
    · rw [if_neg given, if_pos (.inr fun zero => divides (Int.dvd_of_tmod_eq_zero zero))]
    · split
      · exact ih member
      · split
        · rfl
        · exact ih member

/-- Otherwise the processes are divided by all given dimensions. -/
theorem freeLoop_ok (nonneg : ∀ dim ∈ dims, 0 ≤ dim)
    (divide : ∀ dim ∈ dims, dim ≠ 0 → dim ∣ nnodes) {freeprocs : Int} (low : 0 ≤ freeprocs)
    (freedims : Nat) :
    freeLoop nnodes dims freeprocs freedims
      = .ok (freeprocs / (given dims).prod, freedims + dims.count 0) := by
  induction dims generalizing freeprocs freedims with
  | nil => rw [freeLoop, given, filter_nil, prod_nil, Int.ediv_one, count_nil, Nat.add_zero]
  | cons dim dims ih =>
    have rest := @ih (fun dim member => nonneg dim (mem_cons_of_mem _ member))
      (fun dim member => divide dim (mem_cons_of_mem _ member))
    have first := nonneg dim mem_cons_self
    rw [freeLoop]
    by_cases open_ : dim = 0
    · subst open_
      rw [if_pos rfl, rest low, given_zero, count_cons_self, Nat.add_right_comm, Nat.add_assoc]
    · have zero := Int.tmod_eq_zero_of_dvd (divide dim mem_cons_self open_)
      have quotient : freeprocs.tdiv dim = freeprocs / dim := Int.tdiv_eq_ediv_of_nonneg low
      rw [if_neg open_, if_neg (by omega), quotient, rest (Int.ediv_nonneg low first),
        given_cons open_, prod_cons, Int.ediv_ediv_of_nonneg first,
        count_cons_of_ne open_]

end Fill

/-- A choice is right if it multiplies to the number of nodes, keeps what was given and fills in
the rest in decreasing order; and there is one wherever that is possible. -/
structure DimsRight (nnodes : Int) (dims : List Int) : Prop where
  right : ∀ check filled, mpiDimsCreate check nnodes dims = .ok filled →
    filled.prod = nnodes ∧
      List.Forall₂ (fun dim entry => dim ≠ 0 → entry = dim) dims filled ∧
      (filledIn dims filled).Pairwise (· ≥ ·)
  succeeds : (given dims).prod ∣ nnodes → 0 ∈ dims ∨ (given dims).prod = nnodes →
    ∀ check, ∃ filled, mpiDimsCreate check nnodes dims = .ok filled

section Given

variable {dims : List Int} {nnodes : Int}

theorem given_prod_pos (nonneg : ∀ dim ∈ dims, 0 ≤ dim) : 0 < (given dims).prod := by
  refine prod_pos fun dim member => ?_
  obtain ⟨member, set_⟩ := mem_filter.mp member
  have low := nonneg dim member
  have nonzero : dim ≠ 0 := by simpa using set_
  omega

theorem dvd_of_given (divides : (given dims).prod ∣ nnodes) :
    ∀ dim ∈ dims, dim ≠ 0 → dim ∣ nnodes := by
  intro dim member set_
  exact Int.dvd_trans (dvd_prod (mem_filter.mpr ⟨member, by simpa using set_⟩)) divides

/-- A choice that fills in decreasing numbers is right if their product is the quotient. -/
theorem fillDims_right {procs : List Nat} (length : procs.length = dims.count 0)
    (sorted : procs.Pairwise (· ≥ ·)) (product : (given dims).prod * (procs.prod : Nat) = nnodes) :
    (fillDims dims procs).prod = nnodes ∧
      List.Forall₂ (fun dim entry => dim ≠ 0 → entry = dim) dims (fillDims dims procs) ∧
      (filledIn dims (fillDims dims procs)).Pairwise (· ≥ ·) := by
  obtain ⟨same, entries, multiplied⟩ := fillDims_spec length
  refine ⟨multiplied.trans product, same, ?_⟩
  rw [entries, ints, pairwise_map]
  exact sorted.imp fun {a b} less => Int.ofNat_le.mpr less

end Given

section Create

variable {dims : List Int} {nnodes : Int} {check : Bool}

section Positive

variable (positive : 1 ≤ nnodes)

include positive

theorem mpiDimsCreate_error {dim : Int} (member : dim ∈ dims)
    (given : dim ≠ 0) (divides : ¬ dim ∣ nnodes) :
    mpiDimsCreate check nnodes dims = .error .dims := by
  rw [mpiDimsCreate, if_neg (by omega), freeLoop_error member given divides]

section Nonneg

variable (nonneg : ∀ dim ∈ dims, 0 ≤ dim)

include nonneg

section Divide

variable (divide : ∀ dim ∈ dims, dim ≠ 0 → dim ∣ nnodes)

include divide

/-- Without open dimensions only the quotient is looked at. -/
theorem mpiDimsCreate_given (closed : 0 ∉ dims) :
    mpiDimsCreate check nnodes dims
      = if nnodes / (given dims).prod = 1 then .ok dims else .error .dims := by
  rw [mpiDimsCreate, if_neg (by omega), freeLoop_ok nonneg divide (by omega),
    count_eq_zero.mpr closed]
  rfl

/-- Open dimensions take the factors of the quotient. -/
theorem mpiDimsCreate_open (open_ : 0 ∈ dims) :
    ∃ procs : List Nat, mpiDimsCreate check nnodes dims = .ok (fillDims dims procs) ∧
      procs.length = dims.count 0 ∧ procs.Pairwise (· ≥ ·) ∧
      (0 < nnodes / (given dims).prod → (procs.prod : Int) = nnodes / (given dims).prod) := by
  have some_ : 0 < dims.count 0 := count_pos_iff.mpr open_
  rw [mpiDimsCreate, if_neg (by omega), freeLoop_ok nonneg divide (by omega)]
  dsimp only
  rw [if_neg (by omega), Nat.zero_add]
  by_cases one : nnodes / (given dims).prod = 1
  · refine ⟨List.replicate (dims.count 0) 1, ?_, length_replicate, ?_, fun _ => ?_⟩
    · rw [if_pos one, map_eq_fillDims]
    · exact pairwise_replicate_of_refl
    · rw [prod_replicate, Nat.one_pow, one]
      rfl
  · obtain ⟨length, product, sorted⟩ :=
      assignnodes_spec some_ (getfactors (nnodes / (given dims).prod).toNat)
    refine ⟨_, if_neg one, length, sorted, fun quotient => ?_⟩
    rw [product, getfactors_prod (by omega), Int.toNat_of_nonneg (Int.le_of_lt quotient)]

/-- With open dimensions, the given ones have to divide the number of nodes together. -/
theorem dimsRight_open (open_ : 0 ∈ dims) : DimsRight nnodes dims ↔ (given dims).prod ∣ nnodes := by
  have some_ := given_prod_pos nonneg
  constructor
  · intro right
    obtain ⟨procs, success, length, -⟩ := @mpiDimsCreate_open _ _ true positive nonneg divide open_
    have product := (right.right true _ success).1
    rw [(fillDims_spec length).2.2] at product
    exact ⟨_, product.symm⟩
  · intro whole
    refine ⟨fun check filled success => ?_, fun _ _ check => ?_⟩
    · obtain ⟨procs, filled', length, sorted, product⟩ :=
        @mpiDimsCreate_open _ _ check positive nonneg divide open_
      cases success.symm.trans filled'
      apply fillDims_right length sorted
      rw [product (Int.ediv_pos_of_pos_of_dvd (by omega) (Int.le_of_lt some_) whole),
        Int.mul_ediv_cancel' whole]
    · obtain ⟨procs, success, -⟩ := @mpiDimsCreate_open _ _ check positive nonneg divide open_
      exact ⟨_, success⟩

/-- Without open dimensions, a product that goes into the number of nodes once is taken for it. -/
theorem dimsRight_closed (closed : 0 ∉ dims) :
    DimsRight nnodes dims ↔ (given dims).prod ∣ nnodes ∨
      nnodes < (given dims).prod ∨ 2 * (given dims).prod ≤ nnodes := by
  have some_ := given_prod_pos nonneg
  have result (check : Bool) := @mpiDimsCreate_given _ _ check positive nonneg divide closed
  have none_ : ([] : List Nat).length = dims.count 0 := (count_eq_zero.mpr closed).symm
  have once : nnodes / (given dims).prod = 1 ↔ _ := Int.ediv_eq_iff_of_pos some_
  constructor
  · intro right
    -- The quotient of the code is one although something is left.
    by_contra neither
    rw [not_or] at neither
    have success := result true
    rw [if_pos (once.mpr (by omega))] at success
    have product := (right.right true _ success).1
    rw [← fillDims_nil closed, (fillDims_spec none_).2.2] at product
    exact neither.1 ⟨_, product.symm⟩
  · intro either
    refine ⟨fun check filled success => ?_, fun _ found check => ?_⟩
    · rw [result check] at success
      split at success
      · rename_i quotient
        cases success
        have whole : (given dims).prod ∣ nnodes := either.resolve_right (by omega)
        have right := @fillDims_right _ nnodes [] none_ .nil ?_
        · rwa [fillDims_nil closed] at right
        · rw [← Int.mul_ediv_cancel' whole, quotient]
          rfl
      · cases success
    · have same := found.resolve_left closed
      rw [result check, if_pos (once.mpr (by omega))]
      exact ⟨_, rfl⟩

end Divide

end Nonneg

end Positive

end Create

/-- The dimensions chosen are right exactly when the given ones together divide the number of
nodes, or one of them does not, or none is open and the number of nodes is below their product or
at least twice as large. -/
theorem dims_create_iff {nnodes : Int} {dims : List Int} (positive : 1 ≤ nnodes)
    (nonneg : ∀ dim ∈ dims, 0 ≤ dim) :
    DimsRight nnodes dims ↔
      (given dims).prod ∣ nnodes ∨ (∃ dim ∈ dims, dim ≠ 0 ∧ ¬ dim ∣ nnodes) ∨
        0 ∉ dims ∧ (nnodes < (given dims).prod ∨ 2 * (given dims).prod ≤ nnodes) := by
  by_cases refused : ∃ dim ∈ dims, dim ≠ 0 ∧ ¬ dim ∣ nnodes
  · obtain ⟨dim, member, set_, divides⟩ := refused
    refine iff_of_true ⟨?_, ?_⟩ (.inr (.inl ⟨dim, member, set_, divides⟩))
    · intro check filled success
      rw [mpiDimsCreate_error positive member set_ divides] at success
      cases success
    · exact fun whole => absurd (dvd_of_given whole dim member set_) divides
  · have divide : ∀ dim ∈ dims, dim ≠ 0 → dim ∣ nnodes := fun dim member set_ =>
      not_not.mp fun divides => refused ⟨dim, member, set_, divides⟩
    rw [or_iff_right refused]
    by_cases open_ : 0 ∈ dims
    · rw [or_iff_left fun closed => closed.1 open_]
      exact dimsRight_open positive nonneg divide open_
    · rw [and_iff_right open_]
      exact dimsRight_closed positive nonneg divide open_

/-- Six nodes with a given middle dimension. -/
theorem sixNodes_right : mpiDimsCreate true 6 [0, 3, 0] = .ok [2, 3, 1] ∧ DimsRight 6 [0, 3, 0] :=
  ⟨by decide, (dims_create_iff (by decide) (by decide)).mpr (.inl (by decide))⟩

/-- Both given dimensions divide the number of nodes, their product does not. -/
theorem twelveNodes_wrong :
    mpiDimsCreate true 12 [4, 6, 0] = .ok [4, 6, 1] ∧ [(4 : Int), 6, 1].prod ≠ 12 ∧
      mpiDimsCreate true 12 [2, 4] = .ok [2, 4] ∧ [(2 : Int), 4].prod ≠ 12 := by
  decide

end EduMpi.Topo
