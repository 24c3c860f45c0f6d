import EduMpi.Ompi.CommSplitLaws
import EduMpi.Topo.CartLaws

/-! Sub-grids are grids of the kept dimensions, one for each choice of dropped coordinates. -/

namespace EduMpi.Topo

open Ints Radix Ompi Positions List

/-- The entries of the dimensions that are dropped. -/
def dropped {α : Type} (remainDims : List Int) (l : List α) : List α :=
  reject (remainDims.map (· != 0)) l

variable {ds cs : List Nat} {remainDims periods : List Int} {comm : CartComm} {rank : Nat} {n : Int}

section Loop

theorem kept_ints (ds : List Nat) : kept remainDims (ints ds) = ints (kept remainDims ds) :=
  map_select _ ds

theorem dropped_ints (ds : List Nat) :
    dropped remainDims (ints ds) = ints (dropped remainDims ds) :=
  map_select _ ds

theorem prod_kept_mul (length : remainDims.length = ds.length) :
    (kept remainDims ds).prod * (dropped remainDims ds).prod = ds.prod :=
  prod_select_mul (by rwa [length_map])

theorem kept_cons {α : Type} (remain : Int) (x : α) (l : List α) :
    kept (remain :: remainDims) (x :: l)
      = if remain = 0 then kept remainDims l else x :: kept remainDims l := by
  by_cases drop : remain = 0 <;> simp [kept, select_cons]

theorem dropped_cons {α : Type} (remain : Int) (x : α) (l : List α) :
    dropped (remain :: remainDims) (x :: l)
      = if remain = 0 then x :: dropped remainDims l else dropped remainDims l := by
  by_cases drop : remain = 0 <;> simp [dropped, reject_cons]

theorem digits_kept (within : Digits ds cs) (remainDims : List Int) :
    Digits (kept remainDims ds) (kept remainDims cs) :=
  within.select _

theorem digits_dropped (within : Digits ds cs) (remainDims : List Int) :
    Digits (dropped remainDims ds) (dropped remainDims cs) :=
  within.reject _

/-- The loop forms the numbers of the dropped and of the kept coordinates. -/
theorem subLoop_ints (within : Digits ds cs) (small : ds.prod < 2 ^ 31)
    (length : remainDims.length = ds.length) :
    subLoop (ints ds) (ints cs) remainDims
      = ⟨(encode (dropped remainDims ds) (dropped remainDims cs) : Nat),
          (encode (kept remainDims ds) (kept remainDims cs) : Nat),
          ((dropped remainDims ds).prod : Nat), ((kept remainDims ds).prod : Nat),
          (kept remainDims ds).length⟩ := by
  induction within generalizing remainDims with
  | nil =>
    obtain rfl := eq_nil_of_length_eq_zero length
    rfl
  | @cons c d cs ds less within ih =>
    cases remainDims with
    | nil => cases length
    | cons remain remainDims =>
      have within : Digits ds cs := within
      have product := prod_kept_mul (Nat.succ.inj length)
      have positive := (digits_kept within remainDims).positive.prod_pos
      have positive' := (digits_dropped within remainDims).positive.prod_pos
      have lower := encode_lt (digits_kept within remainDims)
      have lower' := encode_lt (digits_dropped within remainDims)
      rw [prod_cons] at small
      have shrinks : ds.prod ≤ d * ds.prod := Nat.le_mul_of_pos_left _ (by omega)
      -- Either factor times the new dimension divides the product of all.
      have bound : d * (kept remainDims ds).prod ≤ d * ds.prod := by
        rw [← product]
        exact Nat.mul_le_mul_left _ (Nat.le_mul_of_pos_right _ positive')
      have bound' : d * (dropped remainDims ds).prod ≤ d * ds.prod := by
        rw [← product]
        exact Nat.mul_le_mul_left _ (Nat.le_mul_of_pos_left _ positive)
      rw [ints_cons, ints_cons, subLoop, ih (by omega) (Nat.succ.inj length), subStep]
      simp only [kept_cons, dropped_cons]
      -- A dimension goes to the colour, or to the key.
      by_cases drop : remain = 0
      · simp only [if_pos drop, encode, prod_cons]
        rw [int32_digit less lower' (by omega), int32_factor (by omega)]
      · simp only [if_neg drop, encode, prod_cons, length_cons]
        rw [int32_digit less lower (by omega), int32_factor (by omega)]

end Loop

section Infos

/-- The number of the dropped coordinates of a process. -/
def colourOf (ds : List Nat) (remainDims : List Int) (rank : Nat) : Nat :=
  encode (dropped remainDims ds) (dropped remainDims (decode ds rank))

/-- The number of the kept coordinates of a process. -/
def keyOf (ds : List Nat) (remainDims : List Int) (rank : Nat) : Nat :=
  encode (kept remainDims ds) (kept remainDims (decode ds rank))

/-- The colours and keys of all processes, by their ranks. -/
def gridInfos (ds : List Nat) (remainDims : List Int) : List (Int × Int) :=
  (List.range ds.prod).map fun rank =>
    (((colourOf ds remainDims rank : Nat) : Int), ((keyOf ds remainDims rank : Nat) : Int))

theorem get?_gridInfos {r : Int} {info : Int × Int} :
    get? (gridInfos ds remainDims) r = some info ↔ ∃ q < ds.prod, r = (q : Nat) ∧
      info = (((colourOf ds remainDims q : Nat) : Int), ((keyOf ds remainDims q : Nat) : Int)) := by
  rw [get?_eq_some_iff]
  constructor
  · rintro ⟨q, rfl, here⟩
    rw [gridInfos, List.getElem?_map, Option.map_eq_some_iff] at here
    obtain ⟨i, inside, rfl⟩ := here
    obtain ⟨bound, same⟩ := List.getElem?_eq_some_iff.mp inside
    rw [getElem_range] at same
    rw [length_range] at bound
    exact ⟨q, bound, rfl, by rw [same]⟩
  · rintro ⟨q, inside, rfl, rfl⟩
    exact ⟨q, rfl, by rw [gridInfos, List.getElem?_map, List.getElem?_range inside]; rfl⟩

variable (length : remainDims.length = ds.length)

include length

theorem Laid.subInfo (laid : Laid comm ds rank) :
    subInfo comm remainDims = (((colourOf ds remainDims rank : Nat) : Int),
      ((keyOf ds remainDims rank : Nat) : Int)) := by
  have digits := decode_digits laid.positive laid.inside
  rw [Topo.subInfo, laid.dims, laid.coords, subLoop_ints digits laid.small length, laid.own]
  refine Prod.ext ?_ rfl
  by_cases nothing : kept remainDims ds = []
  · -- Where everything is dropped, the colour is the rank anyway.
    have all : dropped remainDims ds = ds :=
      reject_of_select (by rwa [length_map]) nothing
    have none_ : kept remainDims (decode ds rank) = [] := by
      have same := (digits_kept digits remainDims).length_eq
      rw [nothing] at same
      exact eq_nil_of_length_eq_zero same
    have others : dropped remainDims (decode ds rank) = decode ds rank :=
      reject_of_select (by rwa [length_map, length_decode]) none_
    simp only [nothing, length_nil, if_true, colourOf]
    rw [all, others, encode_decode laid.positive laid.inside]
  · exact if_neg fun zero => nothing (eq_nil_of_length_eq_zero zero)

/-- The colours and keys the processes pass. -/
theorem subInfos_ints (positive : Positive ds) (small : ds.prod < 2 ^ 31)
    (fits : (ds.prod : Int) ≤ n) :
    subInfos n (ints ds) periods remainDims = gridInfos ds remainDims := by
  obtain ⟨extra, all⟩ : ∃ extra, n.toNat = ds.prod + extra := ⟨n.toNat - ds.prod, by omega⟩
  have counts := countProcs_ints positive 1
  rw [Int.one_mul, int32_natCast small] at counts
  unfold subInfos gridInfos
  rw [all, range_add, filterMap_append]
  -- Processes behind the grid take no part.
  have behind : ((List.range extra).map (ds.prod + ·)).filterMap (fun rank : Nat =>
      passes remainDims (cartCreate n rank (ints ds) periods)) = [] := by
    rw [filterMap_eq_nil_iff]
    intro rank member
    obtain ⟨i, -, rfl⟩ := mem_map.mp member
    rw [cartCreate_outside counts (by omega) fits (by omega) (by omega), passes]
    intro comm same
    cases same
  rw [behind, append_nil, ← filterMap_eq_map]
  apply filterMap_congr
  intro rank member
  have created := cartCreate_inside periods positive small fits (mem_range.mp member)
  rw [created, passes, (cartCreate_ints created).1.subInfo length]
  rfl

/-- Processes with the same colour and the same key are one. -/
theorem rank_unique (positive : Positive ds) {p q : Nat} (inside : p < ds.prod)
    (inside' : q < ds.prod)
    (colour : colourOf ds remainDims p = colourOf ds remainDims q)
    (key : keyOf ds remainDims p = keyOf ds remainDims q) : p = q := by
  have digits := decode_digits positive inside
  have digits' := decode_digits positive inside'
  have others := encode_injective (digits_dropped digits remainDims)
    (digits_dropped digits' remainDims) colour
  have chosen := encode_injective (digits_kept digits remainDims)
    (digits_kept digits' remainDims) key
  have same : decode ds p = decode ds q :=
    select_injective (by rwa [length_map, length_decode])
      (by rwa [length_map, length_decode]) chosen others
  rw [← encode_decode positive inside, same, encode_decode positive inside']

/-- Every key occurs with every colour. -/
theorem exists_rank_of_key (positive : Positive ds) {p key : Nat} (inside : p < ds.prod)
    (small : key < (kept remainDims ds).prod) :
    ∃ q < ds.prod, colourOf ds remainDims q = colourOf ds remainDims p ∧
      keyOf ds remainDims q = key := by
  have digits := decode_digits positive inside
  have chosen := decode_digits (digits_kept digits remainDims).positive small
  obtain ⟨merged, within, select, reject⟩ := exists_digits_select (by rwa [length_map])
    chosen (digits_dropped digits remainDims)
  refine ⟨_, encode_lt within, ?_, ?_⟩
  · rw [colourOf, decode_encode within, colourOf, ← reject]
    rfl
  · rw [keyOf, decode_encode within, ← encode_decode chosen.positive small, ← select]
    rfl

end Infos

section Members

variable {members : List Int}

/-- The processes of a colour, by their ranks. -/
theorem mem_members
    (ordered : Ordered (gridInfos ds remainDims) (colourOf ds remainDims rank : Nat) members)
    (r : Int) :
    r ∈ members ↔ ∃ q < ds.prod, r = (q : Nat) ∧
      colourOf ds remainDims q = colourOf ds remainDims rank := by
  rw [ordered.mem]
  constructor
  · rintro ⟨key, here⟩
    obtain ⟨q, inside, rfl, same⟩ := get?_gridInfos.mp here
    exact ⟨q, inside, rfl, (Int.ofNat.inj (Prod.ext_iff.mp same).1).symm⟩
  · rintro ⟨q, inside, rfl, same⟩
    exact ⟨(keyOf ds remainDims q : Nat), get?_gridInfos.mpr ⟨q, inside, rfl, by rw [same]⟩⟩

section

variable (positive : Positive ds) (length : remainDims.length = ds.length) (inside : rank < ds.prod)
  (ordered : Ordered (gridInfos ds remainDims) (colourOf ds remainDims rank : Nat) members)

include positive length inside ordered

/-- The keys of a sub-grid count its processes. -/
theorem members_keys :
    (members.map fun r => keyOf ds remainDims r.toNat)
      = List.range (kept remainDims ds).prod := by
  have mem := mem_members ordered
  -- Both lists ascend strictly, and have the same members.
  refine List.Pairwise.eq_of_mem_iff (r := (· < ·)) ?_ pairwise_lt_range ?_
  · rw [pairwise_map]
    refine ordered.sorted.imp_of_mem fun {a b} first second before => ?_
    obtain ⟨p, inP, rfl, colourP⟩ := (mem a).mp first
    obtain ⟨q, inQ, rfl, colourQ⟩ := (mem b).mp second
    obtain ⟨x, y, here, there, less⟩ := before
    obtain ⟨p', -, samePlace, rfl⟩ := get?_gridInfos.mp here
    obtain ⟨q', -, samePlace', rfl⟩ := get?_gridInfos.mp there
    obtain rfl := Int.ofNat.inj samePlace
    obtain rfl := Int.ofNat.inj samePlace'
    -- Equal keys would make them one process.
    rcases less with less | ⟨same, less⟩
    · exact Int.ofNat_lt.mp less
    · have one := rank_unique length positive inP inQ (colourP.trans colourQ.symm)
        (Int.ofNat.inj same)
      omega
  · intro key
    rw [mem_map, mem_range]
    constructor
    · rintro ⟨r, member, rfl⟩
      obtain ⟨q, inQ, rfl, -⟩ := (mem r).mp member
      exact encode_lt (digits_kept (decode_digits positive inQ) remainDims)
    · intro small
      obtain ⟨q, inQ, colour, rfl⟩ := exists_rank_of_key length positive inside small
      exact ⟨q, (mem q).mpr ⟨q, inQ, rfl, colour⟩, rfl⟩

/-- A process has its key as its rank. -/
theorem rankOf_members : rankOf undefined members rank = (keyOf ds remainDims rank : Nat) := by
  have own : (rank : Int) ∈ members := (mem_members ordered rank).mpr ⟨rank, inside, rfl, rfl⟩
  have keys := members_keys positive length inside ordered
  obtain ⟨i, place⟩ := mem_iff_getElem?.mp own
  have entry := congrArg (·[i]?) keys
  simp only [List.getElem?_map, place, Option.map_some] at entry
  obtain ⟨bound, same⟩ := List.getElem?_eq_some_iff.mp entry.symm
  rw [getElem_range, Int.toNat_natCast] at same
  rw [← same]
  exact rankOf_of_get? ordered.nodup (get?_natCast i ▸ place)

end

end Members

/-- What a process gets is the grid of the kept dimensions, with itself at its kept coordinates. -/
structure SubGrid (comm : CartComm) (remainDims : List Int) (sub : SubComm) : Prop where
  size : sub.comm.size = (kept remainDims comm.cart.dims).prod
  count : sub.comm.size = sub.members.length
  once : sub.members.Nodup
  dims : sub.comm.cart.dims = kept remainDims comm.cart.dims
  periods : sub.comm.cart.periods = kept remainDims comm.cart.periods
  coords : sub.comm.cart.coords = kept remainDims comm.cart.coords
  own : get? sub.members sub.comm.rank = some comm.rank
  rank : cartRank sub.comm (kept remainDims comm.cart.coords) = some sub.comm.rank

section Sub

variable {split : Int → List (Int × Int) → List Int}

/-- The kept coordinates lay out the sub-grid. -/
theorem Laid.kept (laid : Laid comm ds rank) (length : remainDims.length = ds.length)
    (periods : List Int) :
    Laid ⟨((kept remainDims ds).prod : Nat), (keyOf ds remainDims rank : Nat),
        ints (kept remainDims ds), periods, ints (kept remainDims (decode ds rank))⟩
      (kept remainDims ds) (keyOf ds remainDims rank) := by
  have within := decode_digits laid.positive laid.inside
  have digits := digits_kept within remainDims
  have others := (digits_dropped within remainDims).positive.prod_pos
  refine ⟨digits.positive, ?_, encode_lt digits, rfl, rfl, rfl, ?_⟩
  · have small := laid.small
    rw [← prod_kept_mul length] at small
    exact Nat.lt_of_le_of_lt (Nat.le_mul_of_pos_right _ others) small
  · rw [keyOf, decode_encode digits]

/-- The sub-grid of a process. -/
theorem Laid.cartSub (laid : Laid comm ds rank) (length : remainDims.length = ds.length)
    (orders : ∀ color infos, Ordered infos color (split color infos)) :
    ∃ sub, cartSub split (gridInfos ds remainDims) comm remainDims = some sub ∧
      sub.members = split (colourOf ds remainDims rank : Nat) (gridInfos ds remainDims) ∧
      SubGrid comm remainDims sub := by
  have ordered := orders (colourOf ds remainDims rank : Nat) (gridInfos ds remainDims)
  have digits := digits_kept (decode_digits laid.positive laid.inside) remainDims
  have count := congrArg List.length (members_keys laid.positive length laid.inside ordered)
  rw [length_map, length_range] at count
  have position := rankOf_members laid.positive length laid.inside ordered
  have own : (rank : Int) ∈ split (colourOf ds remainDims rank : Nat) (gridInfos ds remainDims) :=
    (mem_members ordered rank).mpr ⟨rank, laid.inside, rfl, rfl⟩
  have sub := laid.kept length (Topo.kept remainDims comm.cart.periods)
  refine ⟨⟨split (colourOf ds remainDims rank : Nat) (gridInfos ds remainDims),
    ((Topo.kept remainDims ds).prod : Nat), (keyOf ds remainDims rank : Nat),
    ints (Topo.kept remainDims ds), Topo.kept remainDims comm.cart.periods,
    ints (Topo.kept remainDims (decode ds rank))⟩, ?_, rfl, ?_⟩
  · -- The size is that of the kept grid, and the rank is the key.
    rw [Topo.cartSub, laid.subInfo length]
    rw [laid.own, position, laid.dims, kept_ints, count, coordsLoop_ints digits.positive, keyOf,
      decode_encode digits]
    rfl
  · have coords : Topo.kept remainDims comm.cart.coords
        = ints (Topo.kept remainDims (decode ds rank)) := by
      rw [laid.coords, kept_ints]
    refine ⟨?_, ?_, ordered.nodup, ?_, rfl, coords.symm, ?_, ?_⟩
    · rw [laid.dims, kept_ints, prod_ints]
    · rw [count]
    · rw [laid.dims, kept_ints]
    · rw [laid.own, ← position]
      exact get?_rankOf own
    · rw [coords, sub.cartRank (by rw [length_ints]; exact digits.length_eq), reduced_ints digits]
      rfl

end Sub

/-- Two processes share a sub-grid exactly when their dropped coordinates agree, and every process
finds itself in the grid of the kept dimensions at its kept coordinates. -/
theorem cart_sub_grids {split : Int → List (Int × Int) → List Int}
    (orders : ∀ color infos, Ordered infos color (split color infos)) {n : Int}
    {dims periods remainDims : List Int} (length : remainDims.length = dims.length)
    {p : Int} {comm : CartComm} (low : 0 ≤ p)
    (created : cartCreate n p dims periods = some (.ok (some comm))) :
    ∃ sub, cartSub split (subInfos n dims periods remainDims) comm remainDims = some sub ∧
      SubGrid comm remainDims sub ∧
      ∀ q other, 0 ≤ q → cartCreate n q dims periods = some (.ok (some other)) →
        (q ∈ sub.members ↔ dropped remainDims other.cart.coords
          = dropped remainDims comm.cart.coords) ∧
        ∃ sub', cartSub split (subInfos n dims periods remainDims) other remainDims = some sub' ∧
          (sub'.members = sub.members ↔ dropped remainDims other.cart.coords
            = dropped remainDims comm.cart.coords) := by
  obtain ⟨p, rfl⟩ := Int.eq_ofNat_of_zero_le low
  obtain ⟨ds, laid, -, rfl⟩ := cartCreate_laid created
  rw [length_ints] at length
  obtain ⟨fits, -, -⟩ := cartCreate_cases laid.positive created
  rw [int32_natCast laid.small] at fits
  rw [subInfos_ints length laid.positive laid.small fits]
  obtain ⟨sub, result, members, grid⟩ := laid.cartSub length orders
  refine ⟨sub, result, grid, fun q other low' created' => ?_⟩
  obtain ⟨q, rfl⟩ := Int.eq_ofNat_of_zero_le low'
  obtain ⟨laid', -⟩ := cartCreate_ints created'
  obtain ⟨sub', result', members', -⟩ := laid'.cartSub length orders
  -- The members are those of one colour.
  have mem := mem_members (orders (colourOf ds remainDims p : Nat) (gridInfos ds remainDims))
  have mem' := mem_members (orders (colourOf ds remainDims q : Nat) (gridInfos ds remainDims))
  -- The dropped coordinates agree exactly when the colours do.
  have agree : dropped remainDims other.cart.coords = dropped remainDims comm.cart.coords ↔
      colourOf ds remainDims q = colourOf ds remainDims p := by
    rw [laid.coords, laid'.coords, dropped_ints, dropped_ints]
    constructor
    · intro same
      rw [colourOf, colourOf, ints_injective same]
    · intro same
      rw [encode_injective (digits_dropped (decode_digits laid'.positive laid'.inside) remainDims)
        (digits_dropped (decode_digits laid.positive laid.inside) remainDims) same]
  rw [agree, members]
  refine ⟨?_, sub', result', ?_⟩
  · rw [mem]
    constructor
    · rintro ⟨q', -, same, colour⟩
      rwa [Int.ofNat.inj same]
    · exact fun colour => ⟨q, laid'.inside, rfl, colour⟩
  · rw [members']
    constructor
    · intro same
      have own := (mem' q).mpr ⟨q, laid'.inside, rfl, rfl⟩
      rw [same, mem] at own
      obtain ⟨q', -, place, colour⟩ := own
      rwa [Int.ofNat.inj place]
    · intro colour
      rw [colour]

/-- The rows of a grid of two rows and three columns. -/
theorem sixProcs_rows :
    ∃ comm sub, cartCreate 6 4 [2, 3] [0, 1] = some (.ok (some comm)) ∧
      cartSub (splitRanks Sorting.insertion) (subInfos 6 [2, 3] [0, 1] [0, 1]) comm [0, 1]
        = some sub ∧ SubGrid comm [0, 1] sub := by
  have created : cartCreate 6 4 [2, 3] [0, 1]
      = some (.ok (some ⟨6, 4, [2, 3], [0, 1], [1, 1]⟩)) := by decide
  obtain ⟨sub, result, grid, -⟩ := cart_sub_grids (p := 4)
    (splitRanks_ordered Sorting.insertion_sorts)
    (show ([0, 1] : List Int).length = [2, 3].length from rfl)
    (by decide) created
  exact ⟨_, sub, created, result, grid⟩

end EduMpi.Topo
