import EduMpi.Topo.Cart
import Mathlib.Algebra.BigOperators.Group.List.Lemmas
import Mathlib.Data.Nat.Cast.Basic

/-! Ranks and coordinates of a Cartesian topology are inverse. -/

namespace EduMpi.Topo

open Ints Radix List Option

/-- A list of numbers as the machine keeps it. -/
def ints (ds : List Nat) : List Int := ds.map fun d : Nat => (d : Int)

variable {dims periods coords : List Int} {ds cs : List Nat} {n r nprocs : Int}

theorem ints_cons (d : Nat) (ds : List Nat) : ints (d :: ds) = (d : Int) :: ints ds := rfl

@[simp]
theorem length_ints (ds : List Nat) : (ints ds).length = ds.length := by
  rw [ints, length_map]

theorem prod_ints (ds : List Nat) : (ints ds).prod = (ds.prod : Nat) := by
  induction ds with
  | nil => rfl
  | cons d ds ih => rw [ints_cons, prod_cons, ih, prod_cons, Int.natCast_mul]

theorem getElem?_ints {i d : Nat} (here : ds[i]? = some d) : (ints ds)[i]? = some (d : Int) := by
  rw [ints, List.getElem?_map, here]
  rfl

theorem exists_getElem?_ints {i : Nat} {dim : Int} (here : (ints ds)[i]? = some dim) :
    ∃ d : Nat, ds[i]? = some d ∧ (d : Int) = dim := by
  rw [ints, List.getElem?_map] at here
  exact map_eq_some_iff.mp here

theorem ints_injective (same : ints ds = ints cs) : ds = cs := by
  have cast : Function.Injective fun d : Nat => (d : Int) := fun _ _ equal => Int.ofNat.inj equal
  exact cast.list_map same

/-- Positive dimensions are natural numbers. -/
theorem exists_ints (positive : ∀ dim ∈ dims, 0 < dim) : ∃ ds, dims = ints ds ∧ Positive ds := by
  induction dims with
  | nil => exact ⟨[], rfl, fun dim member => nomatch member⟩
  | cons dim dims ih =>
    have first := positive dim mem_cons_self
    obtain ⟨ds, rfl, rest⟩ := ih fun dim member => positive dim (mem_cons_of_mem _ member)
    refine ⟨dim.toNat :: ds, ?_, ?_⟩
    · rw [ints_cons, Int.toNat_of_nonneg (Int.le_of_lt first)]
    · intro d member
      rcases mem_cons.mp member with rfl | member
      · omega
      · exact rest d member

section Create

/-- The product of the dimensions is formed in an `int`. -/
theorem countProcs_ints (positive : Positive ds) (n : Int) :
    countProcs (ints ds) (int32 n) = some (int32 (n * ds.prod)) := by
  induction ds generalizing n with
  | nil => simp [ints, countProcs]
  | cons d ds ih =>
    have first := positive.head
    rw [ints_cons, countProcs, if_neg (by omega), int32_mul, ih positive.tail, prod_cons,
      Int.natCast_mul, Int.mul_assoc]

/-- Only positive dimensions are counted. -/
theorem countProcs_some (counts : countProcs dims n = some nprocs) : ∀ dim ∈ dims, 0 < dim := by
  induction dims generalizing n with
  | nil => exact fun dim member => nomatch member
  | cons dim dims ih =>
    rw [countProcs] at counts
    split at counts
    · cases counts
    · intro other member
      rcases mem_cons.mp member with rfl | member
      · omega
      · exact ih counts other member

/-- The size without its first dimension. -/
theorem tdiv_prod {d : Nat} (first : 0 < d) (ds : List Nat) :
    ((d :: ds).prod : Int).tdiv d = (ds.prod : Nat) := by
  rw [prod_cons, ← Int.ofNat_tdiv, Nat.mul_div_cancel_left _ first]

/-- Dividing the size by one dimension after the other reads the digits of the rank. -/
theorem coordsLoop_ints (positive : Positive ds) (rank : Nat) :
    coordsLoop (ints ds) (ds.prod : Nat) rank = some (ints (decode ds rank)) := by
  induction ds generalizing rank with
  | nil => rfl
  | cons d ds ih =>
    have first := positive.head
    have lower := positive.tail.prod_pos
    rw [ints_cons, coordsLoop, if_neg (by omega)]
    rw [tdiv_prod first, if_neg (by omega), ← Int.ofNat_tmod, ih positive.tail, ← Int.ofNat_tdiv]
    rfl

/-- A size below the product is used up before the last dimension. -/
theorem coordsLoop_none {size : Nat} (positive : Positive ds) (some_ : 0 < size)
    (small : size < ds.prod) (rank : Int) : coordsLoop (ints ds) size rank = none := by
  induction ds generalizing size rank with
  | nil =>
    rw [prod_nil] at small
    omega
  | cons d ds ih =>
    have first := positive.head
    rw [ints_cons, coordsLoop, if_neg (by omega)]
    rw [← Int.ofNat_tdiv]
    by_cases zero : size / d = 0
    · rw [zero]
      rfl
    · rw [if_neg (by omega), ih positive.tail (Nat.pos_of_ne_zero zero)
        (Nat.div_lt_of_lt_mul small)]
      rfl

/-- A communicator over a grid: one process for each list of coordinates, in their order. -/
structure Laid (comm : CartComm) (ds : List Nat) (rank : Nat) : Prop where
  positive : Positive ds
  small : ds.prod < 2 ^ 31
  inside : rank < ds.prod
  dims : comm.cart.dims = ints ds
  size : comm.size = (ds.prod : Nat)
  own : comm.rank = rank
  coords : comm.cart.coords = ints (decode ds rank)

/-- A process of the grid gets its coordinates exactly when the product is exact. -/
theorem coordsLoop_int32 (positive : Positive ds) (some_ : 0 < int32 ds.prod) (rank : Nat)
    {coords : List Int} (found : coordsLoop (ints ds) (int32 ds.prod) rank = some coords) :
    int32 ds.prod = ds.prod ∧ coords = ints (decode ds rank) := by
  -- An int that lost something is below the product.
  have exact_ : int32 ds.prod = ds.prod := by
    by_contra wrapped
    have below : (int32 ds.prod).toNat < ds.prod := by
      unfold int32 at *
      omega
    rw [← Int.toNat_of_nonneg (Int.le_of_lt some_),
      coordsLoop_none positive (by omega) below] at found
    cases found
  rw [exact_, coordsLoop_ints positive] at found
  exact ⟨exact_, (some.inj found).symm⟩

/-- A successful creation, by the product in an `int`. -/
theorem cartCreate_counted {rank : Int} {created : Option CartComm}
    (counts : countProcs dims 1 = some nprocs)
    (success : cartCreate n rank dims periods = some (.ok created)) :
    nprocs ≤ n ∧ 0 ≤ nprocs ∧
      (int32 (nprocs - 1) < rank ∧ created = none ∨
        ¬ int32 (nprocs - 1) < rank ∧ ∃ coords, coordsLoop dims nprocs rank = some coords ∧
          created = some ⟨nprocs, rank, dims, periods, coords⟩) := by
  unfold cartCreate cartAllocate at success
  rw [counts] at success
  dsimp only at success
  by_cases large : n < nprocs
  · rw [if_pos large] at success
    cases success
  -- The number of processes is the product.
  have number : (if nprocs < n then nprocs else n) = nprocs := by
    split <;> omega
  rw [if_neg large, number] at success
  -- A process outside of the grid gets no communicator.
  by_cases outside : int32 (nprocs - 1) < rank
  · rw [if_pos outside, bind_some] at success
    dsimp only at success
    split at success
    · cases success
    · cases success
      exact ⟨by omega, by omega, .inl ⟨outside, rfl⟩⟩
  · rw [if_neg outside, bind_map, bind_eq_some_iff] at success
    obtain ⟨coords, found, success⟩ := success
    dsimp only [Function.comp_apply] at success
    split at success
    · cases success
    · cases success
      exact ⟨by omega, by omega, .inr ⟨outside, coords, found, rfl⟩⟩

/-- What a successful creation says of the exact product. -/
theorem cartCreate_cases (positive : Positive ds) {rank : Nat} {created : Option CartComm}
    (success : cartCreate n rank (ints ds) periods = some (.ok created)) :
    int32 ds.prod ≤ n ∧ 0 ≤ int32 ds.prod ∧
      (created = none ∧ int32 ds.prod ≤ rank ∨
        int32 ds.prod = ds.prod ∧
          ∃ comm, created = some comm ∧ Laid comm ds rank ∧ comm.cart.periods = periods) := by
  have counts := countProcs_ints positive 1
  rw [Int.one_mul] at counts
  have range : int32 ds.prod < 2 ^ 31 := by
    unfold int32
    omega
  obtain ⟨fits, low, cases⟩ := cartCreate_counted counts success
  refine ⟨fits, low, ?_⟩
  -- Outside, the wrapped product says nothing about the product itself.
  rcases cases with ⟨outside, none⟩ | ⟨inside, coords, found, created⟩
  · left
    refine ⟨none, ?_⟩
    generalize int32 ds.prod = nprocs at *
    unfold int32 at outside
    omega
  · right
    have some_ : 0 < int32 ds.prod ∧ rank < int32 ds.prod := by
      generalize int32 ds.prod = nprocs at *
      unfold int32 at inside
      omega
    obtain ⟨exact_, coordinates⟩ := coordsLoop_int32 positive some_.1 rank found
    exact ⟨exact_, _, created, ⟨positive, by omega, by omega, rfl, exact_, rfl, coordinates⟩, rfl⟩

/-- A process of an accepted topology stands in its grid. -/
theorem cartCreate_laid {rank : Nat} {comm : CartComm}
    (success : cartCreate n rank dims periods = some (.ok (some comm))) :
    ∃ ds, Laid comm ds rank ∧ comm.cart.periods = periods ∧ dims = ints ds := by
  -- Dimensions below one are refused, the others are natural numbers.
  have accepted : ∀ dim ∈ dims, 0 < dim := by
    cases counts : countProcs dims 1 with
    | none =>
      rw [cartCreate, cartAllocate, counts] at success
      cases success
    | some nprocs => exact countProcs_some counts
  obtain ⟨ds, rfl, positive⟩ := exists_ints accepted
  obtain ⟨-, -, ⟨none, -⟩ | ⟨-, other, same, laid, periods⟩⟩ := cartCreate_cases positive success
  · cases none
  · cases same
    exact ⟨ds, laid, periods, rfl⟩

theorem cartCreate_ints {rank : Nat} {comm : CartComm}
    (success : cartCreate n rank (ints ds) periods = some (.ok (some comm))) :
    Laid comm ds rank ∧ comm.cart.periods = periods := by
  obtain ⟨es, laid, same, equal⟩ := cartCreate_laid success
  obtain rfl := ints_injective equal
  exact ⟨laid, same⟩

/-- Every process of a grid that fits gets its communicator. -/
theorem cartCreate_inside (periods : List Int) (positive : Positive ds) (small : ds.prod < 2 ^ 31)
    (fits : (ds.prod : Int) ≤ n) {rank : Nat} (inside : rank < ds.prod) :
    cartCreate n rank (ints ds) periods
      = some (.ok (some ⟨(ds.prod : Nat), rank, ints ds, periods, ints (decode ds rank)⟩)) := by
  have one : int32 1 = 1 := by decide
  have counts := countProcs_ints positive 1
  rw [one, Int.one_mul, int32_natCast small] at counts
  have number : (if (ds.prod : Int) < n then (ds.prod : Int) else n) = (ds.prod : Nat) := by
    split <;> omega
  have last : ¬ int32 ((ds.prod : Int) - 1) < rank := by
    rw [int32_of_mem (by omega) (by omega)]
    omega
  unfold cartCreate cartAllocate
  rw [counts]
  dsimp only
  rw [if_neg (by omega), number, if_neg last, coordsLoop_ints positive, map_some, bind_some]
  dsimp only
  rw [if_neg (by omega), map_some]

end Create

section Rank

/-- C's remainder, made non-negative. -/
theorem tmod_add_eq_emod {ord dim : Int} (positive : 0 < dim) :
    (if ord.tmod dim < 0 then ord.tmod dim + dim else ord.tmod dim) = ord % dim := by
  have low := Int.emod_nonneg ord (Int.ne_of_gt positive)
  have high := Int.emod_lt_of_pos ord positive
  rw [Int.tmod_eq_emod]
  by_cases whole : 0 ≤ ord ∨ dim ∣ ord
  · rw [if_pos whole, Int.natCast_zero, Int.sub_zero, if_neg (by omega)]
  · -- A negative ordinate that is no multiple has a remainder of its own sign.
    rw [if_neg whole]
    omega

theorem normalize_eq_emod {ord dim : Int} (positive : 0 < dim) : normalize ord dim = ord % dim := by
  unfold normalize
  by_cases outside : ord < 0 ∨ dim ≤ ord
  · rw [if_pos outside]
    exact tmod_add_eq_emod positive
  · rw [if_neg outside, Int.emod_eq_of_lt (by omega) (by omega)]

/-- Coordinates brought into their dimensions. -/
def reduced (ds : List Nat) (coords : List Int) : List Nat :=
  ds.zipWith (fun d ord => (ord % d).toNat) coords

theorem reduced_digits (positive : Positive ds) (length : coords.length = ds.length) :
    Digits ds (reduced ds coords) := by
  induction ds generalizing coords with
  | nil =>
    exact .nil
  | cons d ds ih =>
    cases coords with
    | nil => cases length
    | cons ord coords =>
      have first := positive.head
      have high := Int.emod_lt_of_pos ord (Int.natCast_pos.mpr first)
      refine .cons ?_ (ih positive.tail (Nat.succ.inj length))
      show (ord % d).toNat < d
      omega

theorem reduced_ints (within : Digits ds cs) : reduced ds (ints cs) = cs := by
  induction within with
  | nil => rfl
  | @cons c d cs ds less _ ih =>
    have same : ((c : Int) % d).toNat = c := by
      rw [Int.emod_eq_of_lt (by omega) (by omega), Int.toNat_natCast]
    rw [ints_cons, reduced, zipWith_cons_cons, same]
    exact congrArg (c :: ·) ih

/-- Every ordinate is a digit once it is inside its dimension. -/
theorem exists_digit {d : Nat} (positive : 0 < d) (ord : Int) :
    ∃ digit < d, ord % d = (digit : Int) := by
  have low := Int.emod_nonneg ord (Int.ne_of_gt (Int.natCast_pos.mpr positive))
  have high := Int.emod_lt_of_pos ord (Int.natCast_pos.mpr positive)
  exact ⟨(ord % d).toNat, by omega, by omega⟩

/-- One more digit in front of a number, in an `int`. -/
theorem int32_digit {digit d lower prod : Nat} (less : digit < d) (below : lower < prod)
    (small : d * prod < 2 ^ 31) :
    int32 ((lower : Int) + int32 ((prod : Int) * digit)) = (digit * prod + lower : Nat) := by
  -- The digit leaves room for one more block of the lower ones.
  have block : (digit + 1) * prod ≤ d * prod := Nat.mul_le_mul_right _ less
  rw [Nat.succ_mul] at block
  rw [int32_add_int32, ← Int.natCast_mul, ← Int.natCast_add, Nat.mul_comm prod, Nat.add_comm,
    int32_natCast (by omega)]

theorem int32_factor {d prod : Nat} (small : d * prod < 2 ^ 31) :
    int32 ((prod : Int) * d) = (d * prod : Nat) := by
  rw [← Int.natCast_mul, Nat.mul_comm, int32_natCast small]

/-- The loop over the dimensions forms the number of the reduced coordinates. -/
theorem rankLoop_ints (positive : Positive ds) (small : ds.prod < 2 ^ 31)
    (length : coords.length = ds.length) :
    rankLoop (ints ds) coords
      = some (((encode ds (reduced ds coords) : Nat) : Int), ((ds.prod : Nat) : Int)) := by
  induction ds generalizing coords with
  | nil =>
    rfl
  | cons d ds ih =>
    cases coords with
    | nil => cases length
    | cons ord coords =>
      have first := positive.head
      rw [prod_cons] at small
      have less : ds.prod ≤ d * ds.prod := Nat.le_mul_of_pos_left _ first
      have loop := ih positive.tail (by omega) (Nat.succ.inj length)
      have lower := encode_lt (reduced_digits positive.tail (Nat.succ.inj length))
      -- The digit, the block below it and the new factor all stay below the product.
      obtain ⟨digit, high, value⟩ := exists_digit first ord
      have step : reduced (d :: ds) (ord :: coords) = digit :: reduced ds coords := by
        rw [reduced, zipWith_cons_cons, value]
        rfl
      rw [ints_cons, rankLoop, loop, bind_some, rankStep, if_neg (by omega)]
      rw [normalize_eq_emod (by omega), value, step, encode, prod_cons,
        int32_digit (by omega) lower small, int32_factor small]

theorem Laid.cartRank {comm : CartComm} {rank : Nat} (laid : Laid comm ds rank)
    (length : coords.length = ds.length) :
    cartRank comm coords = some ((encode ds (reduced ds coords) : Nat) : Int) := by
  rw [Topo.cartRank, laid.dims, rankLoop_ints laid.positive laid.small length]
  rfl

theorem Laid.cartCoords {comm : CartComm} {rank : Nat} (laid : Laid comm ds rank) (other : Nat) :
    cartCoords comm other comm.cart.dims.length = some (ints (decode ds other)) := by
  rw [Topo.cartCoords, take_length, laid.dims, laid.size, coordsLoop_ints laid.positive]

end Rank

section Codes

/-- Ranks and coordinates of a topology determine each other. -/
structure CartCodes (comm : CartComm) : Prop where
  rank_coords : ∀ rank, 0 ≤ rank → rank < comm.size →
    ∃ coords, cartCoords comm rank comm.cart.dims.length = some coords ∧
      cartRank comm coords = some rank
  coords_rank : ∀ coords, List.Forall₂ (fun ord dim => 0 ≤ ord ∧ ord < dim) coords comm.cart.dims →
    ∃ rank, 0 ≤ rank ∧ rank < comm.size ∧ cartRank comm coords = some rank ∧
      cartCoords comm rank comm.cart.dims.length = some coords
  periodic : ∀ coords i ord dim period, coords.length = comm.cart.dims.length →
    coords[i]? = some ord → comm.cart.dims[i]? = some dim → comm.cart.periods[i]? = some period →
    period ≠ 0 → cartRank comm (coords.set i (ord % dim)) = cartRank comm coords
  cached : cartCoords comm comm.rank comm.cart.dims.length = some comm.cart.coords

/-- Coordinates inside the dimensions are digits. -/
theorem exists_digits
    (within : List.Forall₂ (fun ord dim => 0 ≤ ord ∧ ord < dim) coords (ints ds)) :
    ∃ cs, coords = ints cs ∧ Digits ds cs := by
  induction ds generalizing coords with
  | nil =>
    cases within
    exact ⟨[], rfl, .nil⟩
  | cons d ds ih =>
    cases within with
    | @cons ord _ coords _ first rest =>
      obtain ⟨cs, rfl, digits⟩ := ih rest
      have less : ord < (d : Int) := first.2
      refine ⟨ord.toNat :: cs, ?_, .cons (by omega) digits⟩
      rw [ints_cons, Int.toNat_of_nonneg first.1]

theorem reduced_set {i : Nat} {ord dim : Int} (here : coords[i]? = some ord)
    (radix : (ints ds)[i]? = some dim) :
    reduced ds (coords.set i (ord % dim)) = reduced ds coords := by
  induction ds generalizing coords i with
  | nil => cases radix
  | cons d ds ih =>
    cases coords with
    | nil => cases here
    | cons first coords =>
      cases i with
      | zero =>
        obtain rfl : first = ord := some.inj here
        obtain rfl : (d : Int) = dim := some.inj radix
        rw [set_cons_zero, reduced, reduced, zipWith_cons_cons, zipWith_cons_cons,
          Int.emod_emod_of_dvd first (Int.dvd_refl _)]
      | succ i =>
        rw [set_cons_succ, reduced, reduced, zipWith_cons_cons]
        exact congrArg _ (ih here radix)

theorem Laid.codes {comm : CartComm} {rank : Nat} (laid : Laid comm ds rank) : CartCodes comm where
  rank_coords := by
    -- The digits of a rank make up the rank.
    intro other low high
    obtain ⟨other, rfl⟩ := Int.eq_ofNat_of_zero_le low
    rw [laid.size] at high
    have digits := decode_digits laid.positive (Int.ofNat_lt.mp high)
    refine ⟨_, laid.cartCoords other, ?_⟩
    rw [laid.cartRank (by simp), reduced_ints digits,
      encode_decode laid.positive (Int.ofNat_lt.mp high)]
  coords_rank := by
    intro coords within
    rw [laid.dims] at within
    obtain ⟨cs, rfl, digits⟩ := exists_digits within
    have length : cs.length = ds.length := digits.length_eq
    refine ⟨(encode ds cs : Nat), Int.natCast_nonneg _, ?_, ?_, (laid.cartCoords _).trans ?_⟩
    · rw [laid.size]
      exact Int.ofNat_lt.mpr (encode_lt digits)
    · rw [laid.cartRank (by simpa using length), reduced_ints digits]
    · rw [decode_encode digits]
  periodic := by
    intro coords i ord dim period length here radix _ _
    rw [laid.dims] at length radix
    rw [length_ints] at length
    rw [laid.cartRank (by rwa [length_set]), laid.cartRank length, reduced_set here radix]
  cached := by
    rw [laid.own, laid.cartCoords, laid.coords]

/-- The check of the arguments only refuses. -/
theorem mpiCartCreate_ok {check : Bool} {created : Option CartComm}
    (success : mpiCartCreate check n r dims periods = some (.ok created)) :
    cartCreate n r dims periods = some (.ok created) := by
  unfold mpiCartCreate at success
  dsimp only at success
  split at success
  · cases success
  · exact success

/-- A process behind the last one of the grid gets no communicator, and no error. -/
theorem cartCreate_outside (counts : countProcs dims 1 = some nprocs) (low : 0 ≤ nprocs)
    (fits : nprocs ≤ n) (small : nprocs < 2 ^ 31) (outside : nprocs ≤ r) :
    cartCreate n r dims periods = some (.ok none) := by
  have behind : int32 (nprocs - 1) < r := by
    rw [int32_of_mem (by omega) (by omega)]
    omega
  unfold cartCreate cartAllocate
  rw [counts]
  dsimp only
  rw [if_neg (by omega), if_pos behind, bind_some]
  dsimp only
  rw [if_neg (by omega)]
  rfl

end Codes

/-- Ranks and coordinates of every topology that is accepted are inverse, and only grids with
enough processes are accepted, exactly when the product of the dimensions does not come out as a
smaller number of processes in an `int`. -/
theorem cart_codes_iff (dims periods : List Int) {n : Int} (some_ : 0 < n) (procs : n < 2 ^ 31) :
    ((∀ check r comm, 0 ≤ r → r < n →
        mpiCartCreate check n r dims periods = some (.ok (some comm)) → CartCodes comm) ∧
      ((∀ dim ∈ dims, 0 < dim) →
        (∃ check r created, 0 ≤ r ∧ r < n ∧
          mpiCartCreate check n r dims periods = some (.ok created)) → dims.prod ≤ n)) ↔
      ((∀ dim ∈ dims, 0 < dim) → dims.prod ≤ n ∨ n ≤ dims.prod % 2 ^ 32) := by
  constructor
  · -- The last process is outside a grid whose product has lost a multiple.
    rintro ⟨-, admits⟩ positive
    by_contra neither
    rw [not_or] at neither
    obtain ⟨ds, rfl, nonzero⟩ := exists_ints positive
    have counts := countProcs_ints nonzero 1
    rw [Int.one_mul] at counts
    rw [prod_ints] at neither
    have wrapped : int32 ds.prod = ds.prod % 2 ^ 32 := by
      unfold int32
      omega
    have created : cartCreate n (n - 1) (ints ds) periods = some (.ok none) := by
      apply cartCreate_outside counts <;> omega
    have bound := admits positive ⟨false, n - 1, none, by omega, by omega, ?_⟩
    · rw [prod_ints] at bound
      exact neither.1 bound
    · exact created
  · intro fits
    refine ⟨fun check r comm low _ success => ?_, ?_⟩
    · obtain ⟨rank, rfl⟩ := Int.eq_ofNat_of_zero_le low
      obtain ⟨ds, laid, -⟩ := cartCreate_laid (mpiCartCreate_ok success)
      exact laid.codes
    · rintro positive ⟨check, r, created, low, high, success⟩
      have either := fits positive
      obtain ⟨ds, rfl, nonzero⟩ := exists_ints positive
      obtain ⟨rank, rfl⟩ := Int.eq_ofNat_of_zero_le low
      rw [prod_ints] at either ⊢
      -- A process inside the grid vouches for the product, one outside only for the int.
      obtain ⟨small, nonneg, ⟨-, outside⟩ | ⟨exact_, -⟩⟩ :=
        cartCreate_cases nonzero (mpiCartCreate_ok success)
      · rcases either with bound | lost
        · exact bound
        · unfold int32 at *
          omega
      · omega

/-- A grid of two rows and three columns. -/
theorem sixProcs_codes :
    (∃ comm, mpiCartCreate true 6 4 [2, 3] [0, 1] = some (.ok (some comm)) ∧
      comm.cart.coords = [1, 1] ∧ CartCodes comm) := by
  have codes := (cart_codes_iff [2, 3] [0, 1] (n := 6) (by decide) (by decide)).mpr
    (fun _ => .inl (by decide))
  refine ⟨⟨6, 4, [2, 3], [0, 1], [1, 1]⟩, by decide, rfl, ?_⟩
  exact codes.1 true 4 _ (by decide) (by decide) (by decide)

/-- A grid of 2 ^ 32 processes is accepted by a communicator of one. -/
theorem hugeGrid_accepted :
    mpiCartCreate true 1 0 [2 ^ 16, 2 ^ 16] [0, 0] = some (.ok none) ∧
      ¬ [(2 : Int) ^ 16, 2 ^ 16].prod ≤ 1 := by
  refine ⟨by decide, by decide⟩

end EduMpi.Topo
