import EduMpi.Ompi.GroupIncl

/-! Each way of storing a group stands for a list of ranks in the parent group, and the shortcuts
of the rank translation look ranks up in that list. -/

namespace EduMpi.Ompi

open Ints Positions List

theorem compareProcs_eq_zero {p q : ProcName} : compareProcs p q = 0 ↔ p = q := by
  unfold compareProcs
  constructor
  · -- Neither field is smaller or larger than the other.
    intro zero
    split at zero
    · cases zero
    split at zero
    · cases zero
    split at zero
    · cases zero
    split at zero
    · cases zero
    rename_i a b c d
    have jobid : p.jobid = q.jobid := UInt32.le_antisymm (UInt32.not_lt.mp b) (UInt32.not_lt.mp a)
    have vpid : p.vpid = q.vpid := UInt32.le_antisymm (UInt32.not_lt.mp d) (UInt32.not_lt.mp c)
    cases p
    cases q
    simp_all
  · rintro rfl
    simp

section Runs

variable {u rank count : Int} {run : Run} {list : List Run}

/-- The ranks of a run. -/
def Run.ranks (run : Run) : List Int :=
  (List.range run.length.toNat).map fun i : Nat => run.rankFirst + i

theorem Run.mem_ranks :
    rank ∈ run.ranks ↔ run.rankFirst ≤ rank ∧ rank ≤ run.rankFirst + run.length - 1 := by
  simp only [Run.ranks, mem_map, mem_range]
  constructor
  · rintro ⟨i, inside, rfl⟩
    omega
  · rintro ⟨low, high⟩
    exact ⟨(rank - run.rankFirst).toNat, by omega, by omega⟩

theorem Run.get?_ranks {i : Int} (low : 0 ≤ i) (high : i < run.length) :
    get? run.ranks i = some (run.rankFirst + i) := by
  obtain ⟨n, rfl⟩ := Int.eq_ofNat_of_zero_le low
  have inside : n < run.length.toNat := by omega
  simp [Run.ranks, inside]

theorem Run.nodup_ranks (run : Run) : run.ranks.Nodup := by
  refine List.Nodup.map (fun i j same => ?_) nodup_range
  simpa using same

/-- The ranks of a list of runs, one run after the other. -/
def ranksOf (list : List Run) : List Int := list.flatMap Run.ranks

/-- Behind the first run the ranks of the others follow. -/
theorem get?_ranksOf_cons {i : Int} (some : 0 < run.length) (behind : run.length ≤ i) :
    get? (ranksOf (run :: list)) i = get? (ranksOf list) (i - run.length) := by
  obtain ⟨n, rfl⟩ := Int.eq_ofNat_of_zero_le (by omega : 0 ≤ i)
  obtain ⟨k, length⟩ := Int.eq_ofNat_of_zero_le some.le
  have rest : (n : Int) - run.length = ((n - k : Nat) : Int) := by omega
  have runLength : run.ranks.length = k := by simp [Run.ranks, length]
  rw [rest, get?_natCast, ranksOf, flatMap_cons, List.getElem?_append_right (by omega), runLength]
  rfl

theorem rankOf_ranksOf_of_mem (member : rank ∈ run.ranks) :
    rankOf u (ranksOf (run :: list)) rank = rank - run.rankFirst := by
  have bounds := Run.mem_ranks.mp member
  have here := @Run.get?_ranks run (rank - run.rankFirst) (by omega) (by omega)
  have first : rankOf u run.ranks rank = rank - run.rankFirst := by
    refine rankOf_of_get? run.nodup_ranks ?_
    rw [here]
    congr 1
    omega
  rw [rankOf, if_pos member] at first
  rw [rankOf, if_pos (by simp [ranksOf, member]), ranksOf, flatMap_cons, idxOf_append_of_mem member]
  exact first

theorem rankOf_ranksOf_of_notMem (some : 0 < run.length) (absent : rank ∉ run.ranks)
    (later : rank ∈ ranksOf list) :
    rankOf u (ranksOf (run :: list)) rank = run.length + rankOf u (ranksOf list) rank := by
  have member : rank ∈ ranksOf (run :: list) := by
    exact mem_append_right _ later
  have runLength : (run.ranks.length : Int) = run.length := by
    rw [Run.ranks, length_map, length_range]
    omega
  rw [rankOf, rankOf, if_pos member, if_pos later, ranksOf, flatMap_cons,
    idxOf_append_of_notMem absent, Nat.cast_add, runLength]
  rfl

/-- The search over the runs finds the rank in the list they stand for. -/
theorem sporadicRank_eq (filled : ∀ run ∈ list, 0 < run.length) (count : Int) :
    sporadicRank rank list count
      = if rank ∈ ranksOf list then count + rankOf undefined (ranksOf list) rank else undefined := by
  -- The count is what the runs passed have contributed.
  induction list generalizing count with
  | nil => rfl
  | cons run list ih =>
    have some := filled run mem_cons_self
    have member : rank ∈ ranksOf (run :: list) ↔ rank ∈ run.ranks ∨ rank ∈ ranksOf list := by
      simp [ranksOf]
    rw [sporadicRank]
    -- The rank is in the first run, or else in a later one or nowhere.
    by_cases here : rank ∈ run.ranks
    · rw [if_pos (Run.mem_ranks.mp here), if_pos (member.mpr (.inl here)),
        rankOf_ranksOf_of_mem here]
      omega
    rw [if_neg (mt Run.mem_ranks.mpr here),
      ih fun run' later => filled run' (mem_cons_of_mem run later)]
    by_cases later : rank ∈ ranksOf list
    · rw [if_pos later, if_pos (member.mpr (.inr later)),
        rankOf_ranksOf_of_notMem some here later]
      omega
    · rw [if_neg later, if_neg (mt member.mp (not_or.mpr ⟨here, later⟩))]

/-- The search back over the runs reads the list they stand for. -/
theorem sporadicParentRank_eq (filled : ∀ run ∈ list, 0 < run.length) (count : Int)
    (low : count ≤ rank) :
    sporadicParentRank rank list count = get? (ranksOf list) (rank - count) := by
  induction list generalizing count with
  | nil =>
    obtain ⟨n, index⟩ := Int.eq_ofNat_of_zero_le (by omega : 0 ≤ rank - count)
    rw [index]
    rfl
  | cons run list ih =>
    have some := filled run mem_cons_self
    rw [sporadicParentRank]
    -- The rank is behind this run, whose length is passed.
    by_cases behind : count + run.length - 1 < rank
    · rw [if_pos behind, ih (fun run' later => filled run' (mem_cons_of_mem run later)) _
        (by omega), get?_ranksOf_cons some (by omega)]
      congr 1
      omega
    -- The rank falls into the present run.
    rw [if_neg behind]
    have here := @Run.get?_ranks run (rank - count) (by omega) (by omega)
    obtain ⟨n, index⟩ := Int.eq_ofNat_of_zero_le (by omega : 0 ≤ rank - count)
    rw [index, get?_natCast] at here ⊢
    have inside := (List.getElem?_eq_some_iff.mp here).1
    rw [ranksOf, flatMap_cons, List.getElem?_append_left inside, here]

end Runs

section Strides

variable {o s rank : Int} {n : Nat}

/-- So many ranks at a fixed distance. -/
def stride (o s : Int) (n : Nat) : List Int := (List.range n).map fun i : Nat => o + s * i

theorem get?_stride {i : Int} (low : 0 ≤ i) (high : i < n) :
    get? (stride o s n) i = some (s * i + o) := by
  obtain ⟨k, rfl⟩ := Int.eq_ofNat_of_zero_le low
  have inside : k < n := by omega
  simp [stride, inside, Int.add_comm]

theorem nodup_stride (positive : 0 < s) : (stride o s n).Nodup := by
  refine List.Nodup.map (fun i j same => ?_) nodup_range
  have equal : s * (i : Int) = s * j := by omega
  exact Int.ofNat_inj.mp (Int.eq_of_mul_eq_mul_left positive.ne' equal)

/-- The arithmetic test for a rank at one of the places. -/
theorem mem_stride (positive : 0 < s) (some : 0 < n) :
    rank ∈ stride o s n ↔ 0 ≤ rank - o ∧ (rank - o).tmod s = 0 ∧ rank ≤ o + s * (n - 1 : Int) := by
  simp only [stride, mem_map, mem_range]
  constructor
  · rintro ⟨i, inside, rfl⟩
    have below : s * (i : Int) ≤ s * (n - 1 : Int) := Int.mul_le_mul_of_nonneg_left (by omega)
      positive.le
    have low : 0 ≤ s * (i : Int) := Int.mul_nonneg positive.le (by omega)
    refine ⟨by omega, ?_, by omega⟩
    rw [show o + s * (i : Int) - o = s * i by omega]
    exact Int.mul_tmod_right s i
  · -- The quotient is the place.
    rintro ⟨low, divides, high⟩
    obtain ⟨q, quotient⟩ := Int.dvd_of_tmod_eq_zero divides
    have nonneg : 0 ≤ q := by
      by_contra negative
      have : s * q ≤ s * (-1) := Int.mul_le_mul_of_nonneg_left (by omega) positive.le
      omega
    have below : q ≤ n - 1 := by
      by_contra above
      have : s * n ≤ s * q := Int.mul_le_mul_of_nonneg_left (by omega) positive.le
      have : s * (n - 1 : Int) = s * n - s := by rw [Int.mul_sub, Int.mul_one]
      omega
    exact ⟨q.toNat, by omega, by rw [Int.toNat_of_nonneg nonneg]; omega⟩

/-- Division by the stride gives the place. -/
theorem rankOf_stride {u : Int} (positive : 0 < s) (member : rank ∈ stride o s n) :
    rankOf u (stride o s n) rank = (rank - o).tdiv s := by
  obtain ⟨i, inside, rfl⟩ := mem_map.mp member
  have below := mem_range.mp inside
  rw [show o + s * (i : Int) - o = s * i by omega, Int.mul_tdiv_cancel_left _ positive.ne']
  refine rankOf_of_get? (nodup_stride positive) ?_
  rw [get?_stride (by omega) (by omega), Int.add_comm]

end Strides

section Bits

variable {m count : Int} {array : List UInt8}

/-- The positions of the ones, counted from a start. -/
def onesFrom : Nat → List Bool → List Int
  | _, [] => []
  | start, true :: bits => start :: onesFrom (start + 1) bits
  | start, false :: bits => onesFrom (start + 1) bits

theorem mem_onesFrom {start : Nat} {bits : List Bool} {i : Int} :
    i ∈ onesFrom start bits ↔ ∃ k : Nat, bits[k]? = some true ∧ i = start + k := by
  induction bits generalizing start with
  | nil => simp [onesFrom]
  | cons bit bits ih =>
    -- The first position is zero; the others are one further on.
    have split : (∃ k : Nat, (bit :: bits)[k]? = some true ∧ i = start + k) ↔
        (bit = true ∧ i = start) ∨ ∃ k : Nat, bits[k]? = some true ∧ i = (start + 1 : Nat) + k := by
      constructor
      · rintro ⟨k, here, rfl⟩
        cases k with
        | zero => exact .inl ⟨by simpa using here, by simp⟩
        | succ k => exact .inr ⟨k, by simpa using here, by push_cast; omega⟩
      · rintro (⟨rfl, rfl⟩ | ⟨k, here, rfl⟩)
        · exact ⟨0, rfl, by simp⟩
        · exact ⟨k + 1, by simpa using here, by push_cast; omega⟩
    rw [split]
    cases bit with
    | false | true => simp [onesFrom, ih]

/-- The ones are listed from low to high. -/
theorem sorted_onesFrom (start : Nat) (bits : List Bool) :
    (onesFrom start bits).Pairwise (· < ·) := by
  induction bits generalizing start with
  | nil => exact .nil
  | cons bit bits ih =>
    cases bit with
    | false => exact ih (start + 1)
    | true =>
      refine pairwise_cons.mpr ⟨fun i member => ?_, ih (start + 1)⟩
      obtain ⟨k, -, rfl⟩ := mem_onesFrom.mp member
      omega

theorem nodup_onesFrom (start : Nat) (bits : List Bool) : (onesFrom start bits).Nodup :=
  (sorted_onesFrom start bits).imp fun less => less.ne

/-- Counting the ones up to a one gives its place among them. -/
theorem countBits_eq {bits : List Bool} {k start : Nat} (here : bits[k]? = some true)
    (count : Int) :
    countBits bits k count = count + rankOf undefined (onesFrom start bits) (start + k : Nat) := by
  induction bits generalizing k start count with
  | nil => simp at here
  | cons bit bits ih =>
    cases k with
    | zero =>
      obtain rfl : bit = true := by simpa using here
      simp [countBits, onesFrom, rankOf_cons_self]
    | succ k =>
      have later : bits[k]? = some true := by simpa using here
      have member : ((start + 1 + k : Nat) : Int) ∈ onesFrom (start + 1) bits :=
        mem_onesFrom.mpr ⟨k, later, by push_cast; rfl⟩
      have same : start + (k + 1) = start + 1 + k := by omega
      -- The search has passed the first bit, which counts if it is a one.
      rw [countBits, @ih k (start + 1) later, same]
      cases bit with
      | false => rfl
      | true =>
        -- The first one precedes the others.
        have other : (start : Int) ≠ (start + 1 + k : Nat) := by omega
        rw [onesFrom, rankOf_cons_of_ne other member, if_pos rfl]
        omega

/-- Counting until the rank is reached reads the list of the ones. -/
theorem bmapParentRank_eq {bits : List Bool} {start : Nat} (low : count ≤ m)
    (inside : m - count < (onesFrom start bits).length) :
    bmapParentRank m bits start count = get? (onesFrom start bits) (m - count) := by
  induction bits generalizing start count with
  | nil =>
    simp only [onesFrom, length_nil] at inside
    omega
  | cons bit bits ih =>
    rw [bmapParentRank]
    cases bit with
    | false =>
      have other : m ≠ count - 1 := by omega
      simp only [Bool.false_eq_true, if_false, if_neg other]
      exact ih low inside
    -- A one is counted before the count is compared.
    | true =>
      simp only [if_true]
      by_cases reached : m = count
      · rw [if_pos (by omega), reached, Int.sub_self]
        rfl
      rw [if_neg (by omega)]
      have enough : m - (count + 1) < (onesFrom (start + 1) bits).length := by
        simp only [onesFrom, length_cons] at inside
        omega
      obtain ⟨n, index⟩ := Int.eq_ofNat_of_zero_le (by omega : 0 ≤ m - (count + 1))
      rw [ih (by omega) enough, index, show m - count = ((n + 1 : Nat) : Int) by omega, get?_natCast]
      rfl

theorem length_bitsOf (byte : UInt8) : (bitsOf byte).length = 8 := by
  simp [bitsOf]

theorem length_bits (array : List UInt8) : (bits array).length = 8 * array.length := by
  induction array with
  | nil => rfl
  | cons byte array ih =>
    rw [bits, flatMap_cons, length_append, length_cons]
    change 8 + (bits array).length = _
    omega

end Bits

theorem divCeil_eight {size : Int} (low : 0 ≤ size) :
    0 ≤ divCeil size 8 ∧ size ≤ 8 * divCeil size 8 := by
  unfold divCeil
  rw [Int.tmod_eq_emod_of_nonneg low, Int.tdiv_eq_ediv_of_nonneg low]
  split <;> omega

/-- The list of ranks in a parent group of some size that sparse data stands for. -/
inductive Sparse.Encodes (size : Int) : Sparse → List Int → Prop where
  | sporadic (list : List Run) : (∀ run ∈ list, 0 < run.length) →
      Encodes size (.sporadic list) (ranksOf list)
  | strided (o s : Int) (n : Nat) : 0 < s → 0 < n →
      Encodes size (.strided o s (o + s * (n - 1 : Int))) (stride o s n)
  | bitmap (array : List UInt8) : (array.length : Int) = divCeil size 8 →
      Encodes size (.bitmap array) (onesFrom 0 (bits array))

namespace Sparse.Encodes

variable {size rank : Int} {data : Sparse} {sel : List Int} (encodes : data.Encodes size sel)

include encodes

/-- From child to parent the list is read. -/
theorem toParent (low : 0 ≤ rank) (high : rank < sel.length) :
    data.toParent rank = get? sel rank := by
  have valid : rank ≠ procNull := by
    unfold procNull
    omega
  unfold Sparse.toParent
  rw [if_neg valid]
  cases encodes with
  | sporadic list filled =>
    have found := @sporadicParentRank_eq rank list filled 0 low
    rwa [Int.sub_zero] at found
  | strided o s n positive some =>
    rw [get?_stride low (by simpa [stride] using high)]
  | bitmap array length =>
    have found := @bmapParentRank_eq rank 0 (bits array) 0 low (by rwa [Int.sub_zero])
    rwa [Int.sub_zero] at found

/-- From parent to child the rank is looked up in the list. -/
theorem toChild (low : 0 ≤ rank) (high : rank < size) :
    data.toChild rank = some (rankOf undefined sel rank) := by
  have valid : rank ≠ procNull := by
    unfold procNull
    omega
  unfold Sparse.toChild
  rw [if_neg valid]
  -- One search for each storage.
  cases encodes with
  | sporadic list filled =>
    show some (sporadicRank rank list 0) = _
    rw [sporadicRank_eq filled, Int.zero_add]
    by_cases member : rank ∈ ranksOf list
    · rw [if_pos member]
    · rw [if_neg member, rankOf_of_notMem member]
  | strided o s n positive some =>
    by_cases member : rank ∈ stride o s n
    · simp only [if_pos ((mem_stride positive some).mp member), rankOf_stride positive member]
    · simp only [if_neg (mt (mem_stride positive some).mpr member), rankOf_of_notMem member]
  | bitmap array length =>
    -- The bitmap has a bit for every rank of the parent group.
    have room := (divCeil_eight (by omega : 0 ≤ size)).2
    obtain ⟨m, rfl⟩ := Int.eq_ofNat_of_zero_le low
    have inside : m < (bits array).length := by
      rw [length_bits]
      omega
    have member : (m : Int) ∈ onesFrom 0 (bits array) ↔ (bits array)[m] = true := by
      rw [mem_onesFrom]
      constructor
      · rintro ⟨k, here, same⟩
        obtain rfl : m = k := by omega
        rw [List.getElem?_eq_getElem inside] at here
        exact Option.some.inj here
      · intro one
        exact ⟨m, by rw [List.getElem?_eq_getElem inside, one], by simp⟩
    show bmapRank array m = _
    rw [bmapRank, get?_natCast, List.getElem?_eq_getElem inside]
    dsimp only
    rw [Int.toNat_natCast]
    by_cases one : (bits array)[m] = true
    · have counted := @countBits_eq (bits array) m 0
        (by rw [List.getElem?_eq_getElem inside, one]) 0
      rw [if_pos one, counted, Int.zero_add, Nat.zero_add]
    · rw [if_neg one, rankOf_of_notMem (mt member.mp one)]

/-- A process outside of the parent group is outside of the child. -/
theorem toChild_undefined (absent : undefined ∉ sel) :
    data.toChild undefined = some undefined := by
  unfold Sparse.toChild
  cases encodes with
  | sporadic list filled =>
    show some (sporadicRank undefined list 0) = _
    rw [sporadicRank_eq filled, if_neg absent]
  | strided o s n positive some =>
    simp only [if_neg (mt (mem_stride positive some).mpr absent)]
    rfl
  | bitmap array length => rfl

end Sparse.Encodes

end EduMpi.Ompi
