import EduMpi.Topo.CartLaws

/-! A shift along a dimension of a Cartesian topology names matching neighbours. -/

namespace EduMpi.Topo

open Ints Radix List

/-- The process whose ordinate in the direction differs by the displacement: reduced if the
dimension is periodic, none if the shift leaves a dimension that is not. -/
def IsNeighbour (comm : CartComm) (direction : Nat) (disp rank : Int) : Prop :=
  ∃ coords ord dim period, cartCoords comm comm.rank comm.cart.dims.length = some coords ∧
    coords[direction]? = some ord ∧ comm.cart.dims[direction]? = some dim ∧
    comm.cart.periods[direction]? = some period ∧
    if 0 ≤ ord + disp ∧ ord + disp < dim ∨ period ≠ 0 then
      0 ≤ rank ∧ rank < comm.size ∧
        cartCoords comm rank comm.cart.dims.length
          = some (coords.set direction ((ord + disp) % dim))
    else rank = procNull

/-- Both ranks a shift returns are the ones asked for. -/
def ShiftRight (comm : CartComm) (direction : Nat) (disp : Int) : Prop :=
  ∃ found, cartShift comm direction disp = some found ∧
    IsNeighbour comm direction disp found.dest ∧ IsNeighbour comm direction (-disp) found.source

/-- The rank of the process at an ordinate of the direction. -/
def neighbour (ds : List Nat) (rank direction dim : Nat) (period target : Int) : Int :=
  if 0 ≤ target ∧ target < dim ∨ period ≠ 0 then
    (encode ds ((decode ds rank).set direction (target % dim).toNat) : Nat)
  else procNull

variable {ds : List Nat} {periods : List Int} {comm other : CartComm} {rank d dim c : Nat}
variable {period disp target n : Int}

section Loop

/-- The loop stops with the digits from the direction on. -/
theorem shiftLoop_ints (positive : Positive ds) (here : ds[d]? = some dim)
    (mode : periods[d]? = some period) (number : Nat) (old oldPeriod : Int) :
    shiftLoop (((ints ds).zip periods).take (d + 1)) ⟨number, (ds.prod : Nat), old, oldPeriod⟩
      = some ⟨(number % (ds.drop d).prod : Nat), ((ds.drop (d + 1)).prod : Nat), dim, period⟩ := by
  induction ds generalizing d periods number old oldPeriod with
  | nil => cases here
  | cons e ds ih =>
    cases periods with
    | nil => cases mode
    | cons first periods =>
      have head := positive.head
      have all := positive.prod_pos
      rw [ints_cons, zip_cons_cons, take_succ_cons, shiftLoop]
      dsimp only
      rw [if_neg (by omega), tdiv_prod head, ← Int.ofNat_tmod]
      -- The loop stops in the dimension of the shift, with its period and extent.
      cases d with
      | zero =>
        obtain rfl : e = dim := Option.some.inj here
        obtain rfl : first = period := Option.some.inj mode
        rw [take_zero, shiftLoop, drop_zero, drop_succ_cons, drop_zero]
      | succ d =>
        -- The lower digits do not change when the number is reduced first.
        have divides : (ds.drop d).prod ∣ (e :: ds).prod := by
          rw [prod_cons, ← prod_take_mul_prod_drop ds d, ← Nat.mul_assoc]
          exact Nat.dvd_mul_left _ _
        rw [ih positive.tail here mode, drop_succ_cons, drop_succ_cons,
          Nat.mod_mod_of_dvd number divides]

end Loop

section Target

/-- The ordinate of a neighbour inside its dimension. -/
theorem shifted_ordinate (positive : 0 < dim) (small : dim < 2 ^ 31) (target : Int) :
    (if target.tmod dim < 0 then int32 (target.tmod dim + dim) else target.tmod dim)
      = target % dim := by
  have above := Int.lt_tmod_of_pos target (Int.natCast_pos.mpr positive)
  rw [← tmod_add_eq_emod (Int.natCast_pos.mpr positive)]
  by_cases below : target.tmod dim < 0
  · rw [if_pos below, if_pos below, int32_of_mem (by omega) (by omega)]
  · rw [if_neg below, if_neg below]

section

variable (laid : Laid comm ds rank) (here : ds[d]? = some dim)

include laid here

/-- The rank moves by as many blocks as the ordinate does. -/
theorem shiftTo_eq (digit : (decode ds rank)[d]? = some c) :
    shiftTo rank c ((ds.drop (d + 1)).prod : Nat) dim period target
      = some (neighbour ds rank d dim period target) := by
  by_cases stays : 0 ≤ target ∧ target < dim ∨ period ≠ 0
  · have member := mem_of_getElem? here
    have positive : 0 < dim := laid.positive dim member
    have most := laid.positive.le_prod member
    have bounds := laid.small
    have digits := decode_digits laid.positive laid.inside
    have old := digits.lt here digit
    obtain ⟨new, less, value⟩ := exists_digit positive target
    -- The step between two processes of the grid is an int.
    have moved := @encode_set ds (decode ds rank) d c new (length_decode rank) digit
    rw [encode_decode laid.positive laid.inside] at moved
    have inside := encode_lt (digits.set here less)
    have step : ((new : Int) - c) * (ds.drop (d + 1)).prod
        = (encode ds ((decode ds rank).set d new) : Nat) - rank := by
      rw [Int.sub_mul]
      omega
    rw [shiftTo, if_neg (by omega), if_neg (by omega), neighbour, if_pos stays, value,
      Int.toNat_natCast]
    dsimp only
    rw [shifted_ordinate positive (by omega), value,
      int32_of_mem (x := (new : Int) - c) (by omega) (by omega), step, int32_add_int32,
      Int.add_comm, Int.sub_add_cancel, int32_natCast (by omega)]
  · rw [shiftTo, if_pos (by omega), neighbour, if_neg stays]

/-- A process is its own neighbour at its own ordinate. -/
theorem neighbour_self (digit : (decode ds rank)[d]? = some c) :
    neighbour ds rank d dim period c = rank := by
  have old := (decode_digits laid.positive laid.inside).lt here digit
  obtain ⟨bound, value⟩ := List.getElem?_eq_some_iff.mp digit
  rw [neighbour, if_pos (.inl (by omega)), Int.emod_eq_of_lt (by omega) (by omega),
    Int.toNat_natCast, ← value, set_getElem_self, encode_decode laid.positive laid.inside]

/-- Both neighbours, by their ordinates in an `int`. -/
theorem Laid.cartShift (mode : comm.cart.periods[d]? = some period)
    (digit : (decode ds rank)[d]? = some c) :
    cartShift comm d disp = some ⟨neighbour ds rank d dim period (int32 (c - disp)),
      neighbour ds rank d dim period (int32 (c + disp))⟩ := by
  have inside := (List.getElem?_eq_some_iff.mp here).1
  have small := laid.small
  have most := laid.positive.le_prod (mem_of_getElem? here)
  have old := (decode_digits laid.positive laid.inside).lt here digit
  have lower := (laid.positive.drop (d + 1)).prod_pos
  rw [Topo.cartShift]
  -- Nothing is calculated for a displacement of zero.
  by_cases stays : disp = 0
  · rw [if_pos stays, stays, Int.sub_zero, Int.add_zero, int32_natCast (by omega),
      neighbour_self laid here digit, laid.own]
  have value : (rank % (ds.drop d).prod : Nat) / (ds.drop (d + 1)).prod = c := by
    rw [getElem?_decode laid.positive inside laid.inside] at digit
    exact Option.some.inj digit
  have upTo : ((d : Int) + 1).toNat = d + 1 := by omega
  rw [if_neg stays, laid.dims, laid.own, laid.size, upTo]
  dsimp only
  rw [shiftLoop_ints laid.positive here mode]
  simp only [Option.bind_eq_bind, Option.bind_some]
  rw [if_neg (by omega), ← Int.ofNat_tdiv, value, shiftTo_eq laid here digit,
    shiftTo_eq laid here digit]
  rfl

end

end Target

section Right

theorem set_ints (ds : List Nat) (d new : Nat) : (ints ds).set d new = ints (ds.set d new) := by
  rw [ints, ints, map_set]

/-- The neighbour asked for is the one at the exact ordinate. -/
theorem isNeighbour_iff (laid : Laid comm ds rank) (here : ds[d]? = some dim)
    (mode : comm.cart.periods[d]? = some period) (digit : (decode ds rank)[d]? = some c) {r : Int} :
    IsNeighbour comm d disp r ↔ r = neighbour ds rank d dim period (c + disp) := by
  have positive : 0 < dim := laid.positive dim (mem_of_getElem? here)
  have own : cartCoords comm comm.rank comm.cart.dims.length = some (ints (decode ds rank)) := by
    rw [laid.own, laid.cartCoords]
  have radix : comm.cart.dims[d]? = some (dim : Int) := by
    rw [laid.dims]
    exact getElem?_ints here
  obtain ⟨new, less, value⟩ := exists_digit positive (c + disp)
  have digits := (decode_digits laid.positive laid.inside).set here less
  unfold IsNeighbour neighbour
  rw [value, Int.toNat_natCast]
  constructor
  · -- The coordinates determine the process, so the neighbour is unique.
    rintro ⟨coords, ord, dim', period', found, here', radix', mode', place⟩
    cases own.symm.trans found
    cases (getElem?_ints digit).symm.trans here'
    cases radix.symm.trans radix'
    cases mode.symm.trans mode'
    split at place
    · obtain ⟨low, high, found⟩ := place
      obtain ⟨r, rfl⟩ := Int.eq_ofNat_of_zero_le low
      rw [laid.size] at high
      rw [laid.cartCoords, value, set_ints, Option.some.injEq] at found
      rw [if_pos (by assumption), ← ints_injective found,
        encode_decode laid.positive (Int.ofNat_lt.mp high)]
    · rw [if_neg (by assumption)]
      exact place
  · rintro rfl
    refine ⟨_, _, _, _, own, getElem?_ints digit, radix, mode, ?_⟩
    split
    · refine ⟨Int.natCast_nonneg _, ?_, ?_⟩
      · rw [laid.size]
        exact Int.ofNat_lt.mpr (encode_lt digits)
      · rw [laid.cartCoords, decode_encode digits, value, set_ints]
    · rfl

/-- An ordinate that wraps around names the right process unless the dimension is periodic and
sees the difference. -/
theorem neighbour_int32 (period : Int) (laid : Laid comm ds rank) (here : ds[d]? = some dim)
    (low : -2 ^ 31 ≤ target) (high : target < 2 ^ 32) :
    neighbour ds rank d dim period (int32 target) = neighbour ds rank d dim period target ↔
      period = 0 ∨ int32 target % dim = target % dim := by
  have member := mem_of_getElem? here
  have positive : 0 < dim := laid.positive dim member
  have most := laid.positive.le_prod member
  have bounds := laid.small
  have digits := decode_digits laid.positive laid.inside
  have inside := (List.getElem?_eq_some_iff.mp here).1
  by_cases bounded : period = 0
  · refine ⟨fun _ => .inl bounded, fun _ => ?_⟩
    by_cases small : target < 2 ^ 31
    · rw [int32_of_mem low small]
    · -- Both ordinates are outside.
      have below : int32 target < 0 := by
        unfold int32
        omega
      rw [neighbour, if_neg (by omega), neighbour, if_neg (by omega)]
  · -- With wrap-around two ordinates give one process exactly if they agree modulo the extent.
    rw [neighbour, if_pos (.inr bounded), neighbour, if_pos (.inr bounded)]
    refine ⟨fun same => .inr ?_, fun same => ?_⟩
    · have place : ∀ x : Int, (x % dim).toNat < dim := fun x => by
        have := Int.emod_lt_of_pos x (Int.natCast_pos.mpr positive)
        omega
      have equal := encode_injective (digits.set here (place _)) (digits.set here (place _))
        (Int.ofNat.inj same)
      have ordinate := congrArg (·[d]?) equal
      simp only [List.getElem?_set_self (by simpa using inside : d < (decode ds rank).length),
        Option.some.injEq] at ordinate
      have low₁ := Int.emod_nonneg (int32 target) (by omega : (dim : Int) ≠ 0)
      have low₂ := Int.emod_nonneg target (by omega : (dim : Int) ≠ 0)
      omega
    · rcases same with zero | same
      · exact absurd zero bounded
      · rw [same]

theorem Laid.shiftRight_iff (laid : Laid comm ds rank) (here : ds[d]? = some dim)
    (mode : comm.cart.periods[d]? = some period) (digit : (decode ds rank)[d]? = some c)
    (low : -2 ^ 31 ≤ disp) (high : disp < 2 ^ 31) :
    ShiftRight comm d disp ↔ period = 0 ∨
      int32 (c + disp) % dim = (c + disp) % dim ∧ int32 (c - disp) % dim = (c - disp) % dim := by
  have small := laid.small
  have most := laid.positive.le_prod (mem_of_getElem? here)
  have old := (decode_digits laid.positive laid.inside).lt here digit
  have dest := neighbour_int32 period laid here (by omega : -2 ^ 31 ≤ (c : Int) + disp) (by omega)
  have source := neighbour_int32 period laid here (by omega : -2 ^ 31 ≤ (c : Int) - disp) (by omega)
  unfold ShiftRight
  rw [laid.cartShift here mode digit]
  simp only [Option.some.injEq, exists_eq_left', isNeighbour_iff laid here mode digit]
  tauto

end Right

section Displacement

theorem int32_emod_iff (large : 2 ^ 31 ≤ target) (high : target < 2 ^ 32) :
    int32 target % dim = target % dim ↔ (dim : Int) ∣ 2 ^ 32 := by
  have wrapped : int32 target = target - 2 ^ 32 := by
    unfold int32
    omega
  have lost : target - 2 ^ 32 - target = -(2 ^ 32) := by omega
  rw [wrapped, Int.emod_eq_emod_iff_emod_sub_eq_zero, lost, ← Int.dvd_iff_emod_eq_zero, Int.dvd_neg]

/-- Every ordinate keeps its residue exactly when none wraps around or the dimension divides what
is lost. -/
theorem residues_iff (positive : 0 < dim) (small : dim < 2 ^ 31) (low : -2 ^ 31 ≤ disp)
    (high : disp < 2 ^ 31) :
    (∀ c < dim, int32 (c + disp) % dim = (c + disp) % dim ∧
      int32 (c - disp) % dim = (c - disp) % dim) ↔
      (dim : Int) ∣ 2 ^ 32 ∨ (disp.natAbs : Int) + dim ≤ 2 ^ 31 := by
  have kept : ∀ target : Int, -2 ^ 31 ≤ target → target < 2 ^ 32 →
      (dim : Int) ∣ 2 ^ 32 ∨ target < 2 ^ 31 → int32 target % dim = target % dim := by
    intro target low high either
    by_cases large : 2 ^ 31 ≤ target
    · exact (int32_emod_iff large high).mpr (either.resolve_right (by omega))
    · rw [int32_of_mem low (by omega)]
  constructor
  · intro every
    -- The last ordinate goes furthest in both directions.
    obtain ⟨dest, source⟩ := every (dim - 1) (by omega)
    by_cases fits : (disp.natAbs : Int) + dim ≤ 2 ^ 31
    · exact .inr fits
    · left
      by_cases forward : 0 ≤ disp
      · exact (int32_emod_iff (by omega) (by omega)).mp dest
      · exact (int32_emod_iff (by omega) (by omega)).mp source
  · intro either c less
    refine ⟨kept _ (by omega) (by omega) ?_, kept _ (by omega) (by omega) ?_⟩
    · exact either.imp_right fun fits => by omega
    · exact either.imp_right fun fits => by omega

end Displacement

section Dual

/-- Whoever is reached by a displacement is left by it. -/
theorem neighbour_back {p q : Nat} (laid : Laid comm ds p) (here : ds[d]? = some dim)
    (digit : (decode ds p)[d]? = some c)
    (reached : (q : Int) = neighbour ds p d dim period (c + disp)) :
    ∃ c' : Nat, (decode ds q)[d]? = some c' ∧
      (p : Int) = neighbour ds q d dim period (c' - disp) := by
  have positive : 0 < dim := laid.positive dim (mem_of_getElem? here)
  have digits := decode_digits laid.positive laid.inside
  have old := digits.lt here digit
  have inside : d < (decode ds p).length := (List.getElem?_eq_some_iff.mp digit).1
  obtain ⟨new, less, value⟩ := exists_digit positive (c + disp)
  have back : ((new : Int) - disp) % dim = c := by
    rw [← value, Int.emod_sub_emod, Int.add_sub_cancel, Int.emod_eq_of_lt (by omega) (by omega)]
  unfold neighbour at reached
  rw [value, Int.toNat_natCast] at reached
  -- Inside the grid the way back starts from the new ordinate.
  split at reached
  · have code := decode_encode (digits.set here less)
    rw [← Int.ofNat.inj reached] at code
    refine ⟨new, ?_, ?_⟩
    · rw [code, List.getElem?_set_self inside]
    · have stays : 0 ≤ (new : Int) - disp ∧ (new : Int) - disp < dim ∨ period ≠ 0 := by
        refine Or.imp_left (fun within => ?_) ‹_›
        rw [Int.emod_eq_of_lt within.1 within.2] at value
        omega
      rw [neighbour, if_pos stays, back, code, set_set, Int.toNat_natCast]
      obtain ⟨_, same⟩ := List.getElem?_eq_some_iff.mp digit
      rw [← same, set_getElem_self, encode_decode laid.positive laid.inside]
  · unfold procNull at reached
    omega

/-- A process is the destination of another exactly when that one is its source. -/
theorem shift_dual {p q : Nat} (laid : Laid comm ds p) (laid' : Laid other ds q)
    (here : ds[d]? = some dim) (mode : comm.cart.periods[d]? = some period)
    (mode' : other.cart.periods[d]? = some period) (right : ShiftRight comm d disp)
    (right' : ShiftRight other d disp) :
    (∃ found, cartShift comm d disp = some found ∧ found.dest = q) ↔
      ∃ found, cartShift other d disp = some found ∧ found.source = p := by
  have inside := (List.getElem?_eq_some_iff.mp here).1
  have digit := getElem?_decode laid.positive inside laid.inside
  have digit' := getElem?_decode laid'.positive inside laid'.inside
  obtain ⟨found, shifted, dest, -⟩ := right
  obtain ⟨found', shifted', -, source⟩ := right'
  rw [isNeighbour_iff laid here mode digit] at dest
  rw [isNeighbour_iff laid' here mode' digit'] at source
  rw [shifted, shifted']
  simp only [Option.some.injEq, exists_eq_left']
  constructor
  · intro reached
    obtain ⟨c', here', back⟩ := neighbour_back laid here digit (reached ▸ dest)
    cases digit'.symm.trans here'
    rw [back, source, Int.sub_eq_add_neg]
  · intro reached
    obtain ⟨c', here', back⟩ := neighbour_back laid' here digit' (reached ▸ source)
    cases digit.symm.trans here'
    rw [back, dest, Int.sub_neg]

end Dual

section Every

/-- Every ordinate of a dimension is that of a process. -/
theorem exists_rank (positive : Positive ds) (here : ds[d]? = some dim) (less : c < dim) :
    ∃ rank < ds.prod, (decode ds rank)[d]? = some c := by
  have inside := (List.getElem?_eq_some_iff.mp here).1
  have digits := (decode_digits positive positive.prod_pos).set here less
  refine ⟨_, encode_lt digits, ?_⟩
  rw [decode_encode digits, List.getElem?_set_self (by simpa using inside)]

/-- The shifts of all processes are right exactly when the ordinates keep their residues. -/
theorem every_shiftRight_iff (positive : Positive ds) (small : ds.prod < 2 ^ 31)
    (fits : (ds.prod : Int) ≤ n) (here : ds[d]? = some dim) (mode : periods[d]? = some period)
    (low : -2 ^ 31 ≤ disp) (high : disp < 2 ^ 31) :
    (∀ p comm, 0 ≤ p → cartCreate n p (ints ds) periods = some (.ok (some comm)) →
        ShiftRight comm d disp) ↔
      period = 0 ∨ (dim : Int) ∣ 2 ^ 32 ∨ (disp.natAbs : Int) + dim ≤ 2 ^ 31 := by
  have member := mem_of_getElem? here
  have most := positive.le_prod member
  have inside := (List.getElem?_eq_some_iff.mp here).1
  rw [← residues_iff (positive dim member) (by omega) low high]
  constructor
  · -- Every ordinate is taken by some process, so that the condition on all of them is needed.
    intro every
    by_cases bounded : period = 0
    · exact .inl bounded
    right
    intro c less
    obtain ⟨rank, within, digit⟩ := exists_rank positive here less
    have created := cartCreate_inside periods positive small fits within
    have right := every rank _ (Int.natCast_nonneg _) created
    obtain ⟨laid, same⟩ := cartCreate_ints created
    rw [laid.shiftRight_iff here (same ▸ mode) digit low high] at right
    exact right.resolve_left bounded
  · intro kept p comm rank created
    obtain ⟨p, rfl⟩ := Int.eq_ofNat_of_zero_le rank
    obtain ⟨laid, same⟩ := cartCreate_ints created
    have digit := getElem?_decode positive inside laid.inside
    rw [laid.shiftRight_iff here (same ▸ mode) digit low high]
    exact kept.imp_right fun every => every _ ((decode_digits positive laid.inside).lt here digit)

end Every

/-- A shift of an accepted topology finds the right neighbours of every process, and the two of
every pair agree, exactly when no sum of ordinate and displacement leaves an `int` or that does not
matter to the dimension. -/
theorem cart_shift_iff {n p₀ : Int} {dims periods : List Int} {comm₀ : CartComm} {d : Nat}
    {dim period disp : Int} (rank : 0 ≤ p₀)
    (accepted : cartCreate n p₀ dims periods = some (.ok (some comm₀)))
    (here : dims[d]? = some dim) (mode : periods[d]? = some period) (low : -2 ^ 31 ≤ disp)
    (high : disp < 2 ^ 31) :
    ((∀ p comm, 0 ≤ p → cartCreate n p dims periods = some (.ok (some comm)) →
        ShiftRight comm d disp) ∧
      (∀ p q comm other, 0 ≤ p → 0 ≤ q → cartCreate n p dims periods = some (.ok (some comm)) →
        cartCreate n q dims periods = some (.ok (some other)) →
        ((∃ found, cartShift comm d disp = some found ∧ found.dest = q) ↔
          ∃ found, cartShift other d disp = some found ∧ found.source = p))) ↔
      period = 0 ∨ dim ∣ 2 ^ 32 ∨ disp.natAbs + dim ≤ 2 ^ 31 := by
  obtain ⟨p₀, rfl⟩ := Int.eq_ofNat_of_zero_le rank
  obtain ⟨ds, laid₀, -, rfl⟩ := cartCreate_laid accepted
  obtain ⟨dim, radix, rfl⟩ := exists_getElem?_ints here
  obtain ⟨fits, -, exact_⟩ := cartCreate_cases laid₀.positive accepted
  rw [int32_natCast laid₀.small] at fits
  rw [← every_shiftRight_iff laid₀.positive laid₀.small fits radix mode low high]
  refine ⟨And.left, fun every => ⟨every, ?_⟩⟩
  -- The destination of one process and the source of the other are both right.
  intro p q comm other rank rank' created created'
  have right := every p comm rank created
  have right' := every q other rank' created'
  obtain ⟨p, rfl⟩ := Int.eq_ofNat_of_zero_le rank
  obtain ⟨q, rfl⟩ := Int.eq_ofNat_of_zero_le rank'
  obtain ⟨laid, same⟩ := cartCreate_ints created
  obtain ⟨laid', same'⟩ := cartCreate_ints created'
  exact shift_dual laid laid' radix (same ▸ mode) (same' ▸ mode) right right'

/-- One step around a ring of three. -/
theorem ringOfThree_shifts :
    ∃ comm, cartCreate 3 2 [3] [1] = some (.ok (some comm)) ∧
      cartShift comm 0 1 = some ⟨1, 0⟩ ∧ ShiftRight comm 0 1 := by
  have accepted : cartCreate 3 2 [3] [1] = some (.ok (some ⟨3, 2, [3], [1], [2]⟩)) := by decide
  have shifts := (cart_shift_iff (d := 0) (by decide) accepted rfl rfl
    (show -2 ^ 31 ≤ (1 : Int) by decide) (by decide)).mpr (.inr (.inr (by decide)))
  exact ⟨_, accepted, by decide, shifts.1 2 _ (by decide) accepted⟩

/-- The largest displacement leads the last process of a ring of three to itself, not to the
first. -/
theorem ringOfThree_wraps :
    ∃ comm, cartCreate 3 2 [3] [1] = some (.ok (some comm)) ∧
      cartShift comm 0 (2 ^ 31 - 1) = some ⟨1, 2⟩ ∧ IsNeighbour comm 0 (2 ^ 31 - 1) 0 ∧
      ¬ IsNeighbour comm 0 (2 ^ 31 - 1) 2 := by
  refine ⟨⟨3, 2, [3], [1], [2]⟩, by decide, by decide, ?_, ?_⟩
  · exact ⟨[2], 2, 3, 1, by decide, by decide, by decide, by decide, by decide⟩
  · rintro ⟨coords, ord, dim, period, found, here, radix, mode, place⟩
    cases found
    cases here
    cases radix
    cases mode
    revert place
    decide

end EduMpi.Topo
