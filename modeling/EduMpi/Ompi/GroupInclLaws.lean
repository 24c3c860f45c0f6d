import EduMpi.Ompi.GroupTranslate
import Mathlib.Data.List.Sort
import Mathlib.Data.Nat.Bitwise

/-! Whatever storage is chosen for a list of ranks, the group has the listed processes. -/

namespace EduMpi.Ompi

open Ints Positions List

section Runs

variable {run : Run} {previous rank : Int} {rest ranks : List Int}

/-- One more rank at the end of a run. -/
theorem Run.ranks_succ (some : 0 < run.length) :
    ({ run with length := run.length + 1 } : Run).ranks
      = run.ranks ++ [run.rankFirst + run.length] := by
  obtain ⟨n, length⟩ := Int.eq_ofNat_of_zero_le some.le
  rw [Run.ranks, Run.ranks, length]
  rw [show ((n : Int) + 1).toNat = n + 1 by omega, range_succ, map_append]
  rfl

/-- The runs stand for the ranks they were made from. -/
theorem ranksOf_runsFrom (some : 0 < run.length)
    (last : previous = run.rankFirst + run.length - 1) :
    ranksOf (runsFrom run previous rest) = run.ranks ++ rest ∧
      ∀ r ∈ runsFrom run previous rest, 0 < r.length := by
  -- The run begun ends with the previous rank.
  induction rest generalizing run previous with
  | nil =>
    refine ⟨by simp [runsFrom, ranksOf], fun r member => ?_⟩
    obtain rfl := mem_singleton.mp member
    exact some
  | cons rank rest ih =>
    rw [runsFrom]
    by_cases next : rank = previous + 1
    · -- The rank continues the run begun.
      have longer := @ih { run with length := run.length + 1 } rank
        (by show 0 < run.length + 1; omega)
        (by show rank = run.rankFirst + (run.length + 1) - 1; omega)
      rw [if_pos next, longer.1, Run.ranks_succ some, append_assoc]
      refine ⟨?_, longer.2⟩
      congr 2
      simp only [cons_append]
      congr 1
      omega
    · -- The rank begins a run of its own.
      have fresh := @ih ⟨rank, 1⟩ rank Int.one_pos (by show rank = rank + 1 - 1; omega)
      rw [if_neg next]
      constructor
      · have single : Run.ranks ⟨rank, 1⟩ = [rank] := by simp [Run.ranks]
        change run.ranks ++ ranksOf _ = _
        rw [fresh.1, single]
        rfl
      · intro r member
        rcases mem_cons.mp member with rfl | later
        · exact some
        · exact fresh.2 r later

theorem ranksOf_runs : ranksOf (runs ranks) = ranks ∧ ∀ r ∈ runs ranks, 0 < r.length := by
  cases ranks with
  | nil => exact ⟨rfl, fun r member => absurd member not_mem_nil⟩
  | cons rank rest =>
    have all := @ranksOf_runsFrom ⟨rank, 1⟩ rank rest Int.one_pos
      (by show rank = rank + 1 - 1; omega)
    refine ⟨?_, all.2⟩
    rw [runs, all.1]
    simp [Run.ranks]

/-- The lengths of the runs add up to the number of ranks. -/
theorem sum_length_runs : ((runs ranks).map Run.length).sum = ranks.length := by
  have general : ∀ list : List Run, (∀ r ∈ list, 0 < r.length) →
      (list.map Run.length).sum = (ranksOf list).length := by
    intro list filled
    induction list with
    | nil => rfl
    | cons run list ih =>
      have some := filled run mem_cons_self
      rw [map_cons, sum_cons, ih fun r later => filled r (mem_cons_of_mem run later),
        ranksOf, ranksOf, flatMap_cons, length_append, Run.ranks, length_map,
        length_range]
      omega
  rw [general _ ranksOf_runs.2, ranksOf_runs.1]

theorem countRuns_eq (l : Nat) (some : l ≠ 0) :
    countRuns previous l rest = l - 1 + (runsFrom run previous rest).length := by
  induction rest generalizing run previous l with
  | nil =>
    rw [countRuns, runsFrom, length_singleton]
    omega
  | cons rank rest ih =>
    rw [countRuns, runsFrom]
    by_cases next : rank = previous + 1
    · rw [if_pos next, if_pos next, if_neg some]
      exact ih l some
    · rw [if_neg next, if_neg next, @ih ⟨rank, 1⟩ rank (l + 1) (Nat.succ_ne_zero l),
        length_cons]
      omega

/-- As many runs are counted as are stored, whatever is read before the list. -/
theorem countRuns_zero (before : Int) : countRuns before 0 ranks = (runs ranks).length := by
  cases ranks with
  | nil => rfl
  | cons rank rest =>
    have first : countRuns before 0 (rank :: rest) = countRuns rank 1 rest := by
      rw [countRuns]
      simp
    rw [first, @countRuns_eq ⟨rank, 1⟩ rank rest 1 Nat.one_ne_zero, runs]
    omega

end Runs

section Strides

variable {s a : Int} {rest : List Int}

theorem stride_succ (o s : Int) (n : Nat) : stride o s (n + 1) = o :: stride (o + s) s n := by
  rw [stride, range_succ_eq_map, map_cons, map_map]
  congr 1
  · simp
  · refine map_congr_left fun i _ => ?_
    simp only [Function.comp_apply, Nat.cast_succ, Int.mul_add]
    omega

/-- A list with a fixed difference is what the difference and the first rank stand for. -/
theorem stepsBy_iff : stepsBy s (a :: rest) = true ↔ a :: rest = stride a s (rest.length + 1) := by
  induction rest generalizing a with
  | nil => simp [stepsBy, stride]
  | cons b rest ih =>
    rw [stepsBy, Bool.and_eq_true, ih, beq_iff_eq, length_cons, stride_succ a]
    constructor
    · rintro ⟨step, tail⟩
      have head : a + s = b := by omega
      rw [head, ← tail]
    · intro all
      have tail := (List.cons.inj all).2
      have head : b = a + s := by
        rw [stride_succ] at tail
        exact (List.cons.inj tail).1
      exact ⟨by omega, by rw [tail, head]⟩

theorem getLast?_stride (o s : Int) (n : Nat) :
    (stride o s (n + 1)).getLast? = some (o + s * n) := by
  rw [stride, range_succ]
  simp

/-- The data of a list with a stride. -/
theorem strided_encodes {size : Int} {ranks : List Int} (some : ranks ≠ []) (once : ranks.Nodup)
    (steps : checkStride ranks ≠ -1) :
    (Sparse.strided (ranks.headD 0) (checkStride ranks) (ranks.getLastD 0)).Encodes size ranks := by
  obtain ⟨a, rest, rfl⟩ := exists_cons_of_ne_nil some
  -- The difference is positive because the first two ranks are different.
  have found : ∃ s, 0 < s ∧ checkStride (a :: rest) = s ∧
      a :: rest = stride a s (rest.length + 1) := by
    cases rest with
    | nil => exact ⟨1, by decide, rfl, by simp [stride]⟩
    | cons b rest =>
      have other : a ≠ b := by
        rintro rfl
        exact (nodup_cons.mp once).1 mem_cons_self
      unfold checkStride at steps ⊢
      by_cases down : b - a < 0
      · rw [if_pos down] at steps
        exact absurd rfl steps
      rw [if_neg down] at steps ⊢
      by_cases fixed : stepsBy (b - a) (a :: b :: rest) = true
      · rw [if_pos fixed]
        exact ⟨b - a, by omega, rfl, stepsBy_iff.mp fixed⟩
      · rw [if_neg fixed] at steps
        exact absurd rfl steps
  obtain ⟨s, positive, checked, all⟩ := found
  have last : (a :: rest).getLastD 0 = a + s * ((rest.length + 1 : Nat) - 1 : Int) := by
    rw [getLastD_eq_getLast?, all, getLast?_stride, Option.getD_some]
    push_cast
    rw [Int.add_sub_cancel]
  have encodes := @Sparse.Encodes.strided size a s (rest.length + 1) positive (Nat.succ_pos _)
  rw [← all] at encodes
  rw [checked, last]
  exact encodes

end Strides

section Bits

variable {array : List UInt8} {byte : UInt8} {k j : Nat} {ranks : List Int}

theorem toNat_mask (below : k < 8) : ((1 : UInt8) <<< UInt8.ofNat k).toNat = 2 ^ k := by
  have small : k < UInt8.size := by
    show k < 256
    omega
  rw [UInt8.toNat_shiftLeft, UInt8.toNat_ofNat_of_lt' small, Nat.mod_eq_of_lt below]
  simp only [UInt8.toNat_one, Nat.shiftLeft_eq, Nat.one_mul]
  exact Nat.mod_eq_of_lt (Nat.pow_lt_pow_right (by decide) below)

/-- The test by a mask is the test of a bit. -/
theorem test_eq_testBit (below : k < 8) :
    ((1 : UInt8) <<< UInt8.ofNat k == byte &&& 1 <<< UInt8.ofNat k) = byte.toNat.testBit k := by
  rw [Bool.eq_iff_iff, beq_iff_eq, ← UInt8.toNat_inj, UInt8.toNat_and, toNat_mask below,
    Nat.and_two_pow]
  cases byte.toNat.testBit k <;> simp

/-- The bits of a bitmap, read byte by byte. -/
theorem getElem?_bits :
    (bits array)[j]? = (array[j / 8]?).map fun byte => byte.toNat.testBit (j % 8) := by
  induction array generalizing j with
  | nil => rfl
  | cons first array ih =>
    change (bitsOf first ++ bits array)[j]? = _
    rcases Nat.lt_or_ge j 8 with inside | behind
    · rw [List.getElem?_append_left (by rwa [length_bitsOf]), Nat.div_eq_of_lt inside,
        Nat.mod_eq_of_lt inside, bitsOf, List.getElem?_map, List.getElem?_range inside]
      simp only [Option.map_some, List.getElem?_cons_zero, test_eq_testBit inside]
    · -- Behind the first byte the others follow.
      obtain ⟨i, rfl⟩ := Nat.exists_eq_add_of_le behind
      rw [List.getElem?_append_right (by rwa [length_bitsOf]), length_bitsOf,
        Nat.add_sub_cancel_left, ih, Nat.add_mod_left, Nat.add_div_left i (by decide),
        List.getElem?_cons_succ]

/-- Setting a bit sets that bit and no other. -/
theorem bits_set {i : Nat} (here : array[i]? = some byte) (below : k < 8) :
    (bits (array.set i (byte ||| 1 <<< UInt8.ofNat k)))[j]? = some true ↔
      j = 8 * i + k ∨ (bits array)[j]? = some true := by
  have inside := (List.getElem?_eq_some_iff.mp here).1
  rw [getElem?_bits, getElem?_bits]
  by_cases same : j / 8 = i
  · rw [same, List.getElem?_set_self inside, here]
    simp only [Option.map_some, Option.some_inj, UInt8.toNat_or, Nat.testBit_or, toNat_mask below,
      Nat.testBit_two_pow, Bool.or_eq_true, decide_eq_true_eq]
    constructor
    · rintro (set | rfl)
      · exact .inr set
      · exact .inl (by omega)
    · rintro (rfl | set)
      · exact .inr (by omega)
      · exact .inl set
  · rw [List.getElem?_set_ne (Ne.symm same)]
    refine ⟨.inr, fun either => either.resolve_left fun position => same (by omega)⟩

/-- Setting the bits of some ranks sets those and no others. -/
theorem setBits_spec {n : Nat} (length : array.length = n)
    (inside : ∀ rank ∈ ranks, 0 ≤ rank ∧ rank < 8 * n) :
    ∃ after, setBits ranks array = some after ∧ after.length = n ∧
      ∀ j : Nat, (bits after)[j]? = some true ↔ (j : Int) ∈ ranks ∨ (bits array)[j]? = some true := by
  induction ranks generalizing array with
  | nil => exact ⟨array, rfl, length, fun j => by simp⟩
  | cons rank rest ih =>
    obtain ⟨low, high⟩ := inside rank mem_cons_self
    obtain ⟨r, rfl⟩ := Int.eq_ofNat_of_zero_le low
    have room : r / 8 < array.length := by omega
    have quotient : ((r : Int).tdiv 8) = ((r / 8 : Nat) : Int) := rfl
    have remainder : ((r : Int).tmod 8).toNat = r % 8 := rfl
    -- The first rank is set, then the others in the bitmap that results.
    obtain ⟨after, done, kept, ones⟩ :=
      @ih (array.set (r / 8) (array[r / 8] ||| 1 <<< UInt8.ofNat (r % 8)))
        (by rwa [length_set]) (fun rank later => inside rank (mem_cons_of_mem _ later))
    refine ⟨after, ?_, kept, fun j => ?_⟩
    · rw [setBits, quotient, get?_natCast, List.getElem?_eq_getElem room,
        remainder]
      exact done
    · have here := List.getElem?_eq_getElem room
      have split := Nat.div_add_mod r 8
      rw [ones, bits_set here (Nat.mod_lt r (by decide)), split, mem_cons, Nat.cast_inj]
      tauto

theorem bits_replicate (n : Nat) : (bits (List.replicate n 0))[j]? ≠ some true := by
  rw [getElem?_bits]
  intro set
  obtain ⟨byte, here, test⟩ := Option.map_eq_some_iff.mp set
  have zero : byte = 0 := (mem_replicate.mp (mem_of_getElem? here)).2
  rw [zero] at test
  simp at test

/-- The bitmap of an ascending list of ranks. -/
theorem bitmap_encodes {size : Int} (low : 0 ≤ size)
    (inside : ∀ rank ∈ ranks, 0 ≤ rank ∧ rank < size) (ascending : ranks.Pairwise (· < ·)) :
    ∃ array, setBits ranks (List.replicate (divCeil size 8).toNat 0) = some array ∧
      (Sparse.bitmap array).Encodes size ranks := by
  obtain ⟨nonneg, room⟩ := divCeil_eight low
  obtain ⟨array, done, length, ones⟩ := @setBits_spec (List.replicate (divCeil size 8).toNat 0) ranks
    (divCeil size 8).toNat length_replicate
    (fun rank member => ⟨(inside rank member).1, by have := (inside rank member).2; omega⟩)
  refine ⟨array, done, ?_⟩
  -- Two ascending lists with the same ranks are the same list.
  have same : onesFrom 0 (bits array) = ranks := by
    refine List.Perm.eq_of_pairwise (fun a b _ _ before after => absurd before (by omega))
      (sorted_onesFrom 0 (bits array)) ascending ?_
    refine (perm_ext_iff_of_nodup (nodup_onesFrom 0 _)
      (ascending.imp fun less => less.ne)).mpr fun rank => ?_
    rw [mem_onesFrom]
    constructor
    · rintro ⟨k, set, rfl⟩
      have member := ((ones k).mp set).resolve_right (bits_replicate _)
      simpa using member
    · intro member
      obtain ⟨k, rfl⟩ := Int.eq_ofNat_of_zero_le (inside rank member).1
      exact ⟨k, (ones k).mpr (.inl member), by simp⟩
  have encodes := @Sparse.Encodes.bitmap size array (by omega)
  rwa [same] at encodes

/-- The check of the ranks together with their being different is that they ascend. -/
theorem ascending_of_checkRanks (checked : checkRanks ranks = true) (once : ranks.Nodup) :
    ranks.Pairwise (· < ·) := by
  have chain : ranks.IsChain (· ≤ ·) := by
    induction ranks with
    | nil => exact .nil
    | cons a rest ih =>
      cases rest with
      | nil => exact .singleton a
      | cons b rest =>
        rw [checkRanks, Bool.and_eq_true] at checked
        refine .cons_cons ?_ (ih checked.2 (nodup_cons.mp once).2)
        simpa using checked.1
  have sorted : ranks.Pairwise (· ≤ ·) := isChain_iff_pairwise.mp chain
  exact sorted.and once |>.imp fun both => lt_of_le_of_ne both.1 both.2

end Bits

/-- The smallest of four sizes, of which the second and the last may be missing. -/
theorem minloc_four (plist strided sporadic bitmap : Int) :
    let method := minloc [plist, strided, sporadic, bitmap]
    method = 0 ∨ (method = 1 ∧ strided ≠ -1) ∨ method = 2 ∨ (method = 3 ∧ bitmap ≠ -1) := by
  intro method
  have found : method = minlocFrom plist 0 1 [strided, sporadic, bitmap] := by
    simp [method, minloc, minlocFrom]
  clear_value method
  simp only [minlocFrom] at found
  split_ifs at found <;> omega

/-- What the choice of the smallest storage says about the ranks. -/
theorem minloc_cases (before size : Int) (ranks : List Int) :
    let method := minloc [calcPlist ranks, calcStrided ranks, calcSporadic before ranks,
      calcBmap size ranks]
    method = 0 ∨ (method = 1 ∧ checkStride ranks ≠ -1) ∨ method = 2 ∨
      (method = 3 ∧ checkRanks ranks = true) := by
  have strided : calcStrided ranks ≠ -1 → checkStride ranks ≠ -1 := by
    unfold calcStrided
    split <;> simp [*]
  have bitmap : calcBmap size ranks ≠ -1 → checkRanks ranks = true := by
    unfold calcBmap
    split <;> simp [*]
  have choice := minloc_four (calcPlist ranks) (calcStrided ranks) (calcSporadic before ranks)
    (calcBmap size ranks)
  exact choice.imp_right (.imp (.imp_right strided) (.imp_right (.imp_right bitmap)))

namespace Group

variable {env : Setting} {g : Group} {data : Sparse} {sel ranks : List Int}

/-- A group is not a child of its own child. -/
theorem sparseIn_child (addr : Nat) (count rank : Int) :
    g.sparseIn (sparse addr g count rank data) = none := by
  cases g with
  | dense => rfl
  | sparse addr' parent count' rank' data' =>
    refine if_neg fun same => ?_
    have sizes := congrArg sizeOf same
    simp only [sparse.sizeOf_spec] at sizes
    omega

/-- The own rank of a new sparse group is the caller's place among the ranks. -/
theorem Good.withMyRank (good : g.Good env.me) (encodes : data.Encodes g.procCount sel)
    (some : sel ≠ []) (inside : ∀ rank ∈ sel, 0 ≤ rank ∧ rank < g.procCount) :
    g.withMyRank env sel.length data
      = Option.some (Group.sparse env.addr g sel.length (rankOf undefined sel g.myRank) data) := by
  -- A group that ranks are taken from is not the empty one.
  have filled : g ≠ empty := by
    rintro rfl
    obtain ⟨rank, rest, rfl⟩ := exists_cons_of_ne_nil some
    have bounds := inside rank mem_cons_self
    have : (empty.procCount : Int) = 0 := rfl
    omega
  -- The new group is a child, so its storage translates the rank.
  have asked : g.translateRanks [g.myRank] (Group.sparse env.addr g sel.length undefined data)
      = (data.toChild g.myRank).map fun rank => [rank] := by
    have child : (Group.sparse env.addr g sel.length undefined data).sparseIn g
        = Option.some data := if_pos rfl
    rw [Group.translateRanks, if_neg (not_or.mpr ⟨filled, by simp [empty]⟩), sparseIn_child, child]
    show [g.myRank].mapM data.toChild = _
    rw [mapM_cons]
    cases data.toChild g.myRank <;> rfl
  unfold Group.withMyRank
  dsimp only
  rw [asked]
  rcases good.own_cases with ⟨own, absent⟩ | ⟨low, high, here⟩
  · -- The local process is not in the parent group.
    have outside : undefined ∉ sel := fun member => absurd (inside _ member).1 (by decide)
    rw [own, encodes.toChild_undefined outside, rankOf_of_notMem outside]
    rfl
  · rw [encodes.toChild low high]
    rfl

/-- The group that an inclusion must give: the listed processes, and the caller's place among
them. -/
structure Includes (me : ProcName) (g : Group) (ranks : List Int) (new : Group) : Prop where
  valid : new.Valid me
  count : new.procCount = ranks.length
  members : new.members = pick g.members ranks
  own : new.myRank = rankOf undefined ranks g.myRank

theorem Includes.empty (me : ProcName) (g : Group) : Includes me g [] empty :=
  ⟨.empty, rfl, rfl, rfl⟩

/-- Every method gives the empty group for the empty list. -/
theorem incl_nil : g.incl env [] = some empty := by
  unfold incl
  dsimp only
  split <;> rfl

section

variable (inside : ∀ rank ∈ ranks, 0 ≤ rank ∧ rank < g.procCount)

include inside

/-- Reading the processes at some ranks selects them. -/
theorem Good.mapM_procPtrRaw {me : ProcName} (good : g.Good me) :
    ranks.mapM g.procPtrRaw = some (pick g.members ranks) := by
  induction ranks with
  | nil => rfl
  | cons rank rest ih =>
    obtain ⟨low, high⟩ := inside rank mem_cons_self
    obtain ⟨p, here⟩ := exists_get?_iff.mpr ⟨low, good.count ▸ high⟩
    rw [mapM_cons, good.lookup rank low high, here, pick_cons here,
      ih fun r later => inside r (mem_cons_of_mem _ later)]
    rfl

/-- The list of processes is right for any ranks. -/
theorem Valid.inclPlist (valid : g.Valid env.me) (once : ranks.Nodup) :
    ∃ new, g.inclPlist env ranks = some new ∧ Includes env.me g ranks new := by
  have good := valid.good
  have inside' := good.within inside
  unfold Group.inclPlist
  by_cases none : ranks = []
  · rw [none]
    exact ⟨_, rfl, .empty _ g⟩
  rw [if_neg none, good.mapM_procPtrRaw inside]
  have length := length_pick inside'
  obtain ⟨distinct, known, rank⟩ := good.selection once inside'
  have filled : pick g.members ranks ≠ [] := fun empty => by
    rw [empty] at length
    exact none (length_eq_zero_iff.mp length.symm)
  -- The own rank is searched for only when the caller is in the parent group.
  have own : (if g.myRank ≠ undefined then setGroupRank env.me (pick g.members ranks) else undefined)
      = rankOf undefined (pick g.members ranks) (.proc env.me) := by
    by_cases mine : g.myRank = undefined
    · have outside : undefined ∉ ranks := fun member => absurd (inside _ member).1 (by decide)
      rw [if_neg (not_not.mpr mine), rank, mine, rankOf_of_notMem outside]
    · exact if_pos mine
  refine ⟨_, rfl, ?_, congrArg _ length, rfl, own.trans rank⟩
  rw [own]
  exact .dense env.addr _ filled distinct known

/-- A sparse group is given for data that stands for the ranks. -/
theorem Valid.withMyRank_includes (valid : g.Valid env.me)
    (encodes : data.Encodes g.procCount ranks) (some : ranks ≠ []) (once : ranks.Nodup) :
    ∃ new, g.withMyRank env ranks.length data = Option.some new ∧ Includes env.me g ranks new :=
  ⟨_, valid.good.withMyRank encodes some inside, .sparse env.addr valid encodes some once inside, rfl,
    by rw [Group.members, encodes.selected], rfl⟩

/-- Whatever storage is chosen, an inclusion gives the group of the listed processes. -/
theorem Valid.incl (valid : g.Valid env.me) (once : ranks.Nodup) :
    ∃ new, g.incl env ranks = some new ∧ Includes env.me g ranks new := by
  by_cases none : ranks = []
  · subst none
    exact ⟨_, incl_nil, .empty _ g⟩
  have listed := valid.inclPlist inside once
  unfold Group.incl
  cases env.sparse with
  | false => exact listed
  | true =>
    have choice := minloc_cases env.before g.procCount ranks
    generalize minloc [calcPlist ranks, calcStrided ranks, calcSporadic env.before ranks,
      calcBmap g.procCount ranks] = method at choice ⊢
    -- One case for each storage.
    rcases choice with rfl | ⟨rfl, steps⟩ | rfl | ⟨rfl, sorted⟩
    · exact listed
    · have made := valid.withMyRank_includes inside (strided_encodes none once steps) none once
      simpa [inclStrided, none] using made
    · have encodes := @Sparse.Encodes.sporadic g.procCount (runs ranks) ranksOf_runs.2
      rw [ranksOf_runs.1] at encodes
      have made := valid.withMyRank_includes inside encodes none once
      simpa [inclSpor, none, countRuns_zero, sum_length_runs] using made
    · have low : 0 ≤ g.procCount := by
        rw [valid.good.count]
        omega
      obtain ⟨array, set, encodes⟩ := bitmap_encodes low inside (ascending_of_checkRanks sorted once)
      have made := valid.withMyRank_includes inside encodes none once
      simpa [inclBmap, none, set] using made

/-- The processes of a group made by an inclusion are found through the parent group. -/
theorem Includes.procPtrRaw {me : ProcName} {new : Group} (includes : Includes me g ranks new)
    (good : g.Good me) {i rank : Int}
    (listed : get? ranks i = some rank) : new.procPtrRaw i = g.procPtrRaw rank := by
  have bounds := exists_get?_iff.mp ⟨rank, listed⟩
  have inside' := good.within inside
  have within := inside rank (mem_of_get? listed)
  rw [includes.valid.good.lookup i bounds.1 (includes.count ▸ bounds.2), includes.members,
    get?_pick inside', listed, good.lookup rank within.1 within.2]
  rfl

end

end Group

/-- Including a list of different ranks gives a group in which each place holds the process listed
for it and the caller has its place in the list, whatever storage the parent group has and the new one gets. -/
theorem incl_selects {env : Setting} {g : Group} {ranks : List Int} (valid : g.Valid env.me)
    (once : ranks.Nodup) (inside : ∀ rank ∈ ranks, 0 ≤ rank ∧ rank < g.procCount) :
    ∃ new, g.incl env ranks = some new ∧ new.Valid env.me ∧ new.procCount = ranks.length ∧
      (∀ i rank, get? ranks i = some rank → new.procPtrRaw i = g.procPtrRaw rank) ∧
      new.myRank = rankOf undefined ranks g.myRank := by
  obtain ⟨new, made, includes⟩ := valid.incl inside once
  exact ⟨new, made, includes.valid, includes.count,
    fun i rank listed => includes.procPtrRaw inside valid.good listed, includes.own⟩

/-- The two outer ones of three processes are stored in a bitmap, without the caller; of that group
the last one is taken into a bitmap again by a caller that it does not have. -/
theorem threeProcs_incl :
    let env : Setting := ⟨⟨7, 1⟩, true, 0, 5⟩
    ∃ outer last, threeProcs.incl env [0, 2] = some outer ∧ outer.myRank = undefined ∧
      outer.incl env [1] = some last ∧ last.procCount = 1 ∧ last.myRank = undefined := by
  obtain ⟨outer, made, valid, count, -, own⟩ := @incl_selects ⟨⟨7, 1⟩, true, 0, 5⟩ threeProcs [0, 2]
    threeProcs_valid (by decide) (by decide)
  obtain ⟨last, again, -, one, -, absent⟩ := @incl_selects ⟨⟨7, 1⟩, true, 0, 5⟩ outer [1]
    valid (by decide) (by rw [count]; decide)
  refine ⟨outer, last, made, own, again, one, absent.trans ?_⟩
  rw [own]
  rfl

end EduMpi.Ompi
