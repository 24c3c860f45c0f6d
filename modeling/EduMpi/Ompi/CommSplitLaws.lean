import EduMpi.Ompi.CommSplit
import EduMpi.Ompi.GroupInclLaws

/-! Every member of a color gets the same group from a split, in the order of keys and old ranks. -/

namespace EduMpi.Ompi

open Ints Positions Sorting List

variable {qsort : QSort}

section Order

variable {color : Int} {infos : List (Int × Int)} {a b : Int × Int} {start : Int}

theorem rankkeycompare_neg : rankkeycompare a b < 0 ↔ a.2 < b.2 ∨ a.2 = b.2 ∧ a.1 < b.1 := by
  unfold rankkeycompare
  split_ifs <;> omega

theorem rankkeycompare_pos : 0 < rankkeycompare a b ↔ b.2 < a.2 ∨ a.2 = b.2 ∧ b.1 < a.1 := by
  unfold rankkeycompare
  split_ifs <;> omega

theorem rankkeycompare_consistent : Consistent rankkeycompare := by
  constructor
  · intro a b
    rw [rankkeycompare_pos, rankkeycompare_neg]
    omega
  · intro a b c
    simp only [← not_lt, rankkeycompare_pos]
    omega

theorem rankkeycompare_eq_zero (a b : Int × Int) (same : rankkeycompare a b = 0) : a = b := by
  have less := mt rankkeycompare_neg.mpr (by omega : ¬ rankkeycompare a b < 0)
  have more := mt rankkeycompare_pos.mpr (by omega : ¬ 0 < rankkeycompare a b)
  exact Prod.ext (by omega) (by omega)

/-- One old rank comes before another by its key, or by itself if the keys are the same. -/
def Before (infos : List (Int × Int)) (a b : Int) : Prop :=
  ∃ x y, get? infos a = some x ∧ get? infos b = some y ∧ (x.2 < y.2 ∨ x.2 = y.2 ∧ a < b)

/-- The old ranks of a color in the order of the new communicator. -/
structure Ordered (infos : List (Int × Int)) (color : Int) (order : List Int) : Prop where
  sorted : order.Pairwise (Before infos)
  mem : ∀ rank, rank ∈ order ↔ ∃ key, get? infos rank = some (color, key)

theorem Before.ne {a b : Int} (before : Before infos a b) : a ≠ b := by
  rintro rfl
  obtain ⟨x, y, here, there, less⟩ := before
  obtain rfl := Option.some.inj (here.symm.trans there)
  omega

theorem Before.asymm {a b : Int} (before : Before infos a b) : ¬ Before infos b a := by
  rintro ⟨y', x', here', there', less'⟩
  obtain ⟨x, y, here, there, less⟩ := before
  obtain rfl := Option.some.inj (here.symm.trans there')
  obtain rfl := Option.some.inj (there.symm.trans here')
  omega

section

variable {order : List Int} (ordered : Ordered infos color order)

include ordered

theorem Ordered.nodup : order.Nodup :=
  ordered.sorted.imp fun before => before.ne

/-- There is one such order. -/
theorem Ordered.unique {other : List Int} (also : Ordered infos color other) : order = other := by
  have perm : order.Perm other := by
    refine (perm_ext_iff_of_nodup ordered.nodup also.nodup).mpr fun rank => ?_
    rw [ordered.mem, also.mem]
  exact perm.eq_of_pairwise (fun _ _ _ _ forth back => absurd back forth.asymm)
    ordered.sorted also.sorted

theorem Ordered.inside {rank : Int} (member : rank ∈ order) : 0 ≤ rank ∧ rank < infos.length := by
  obtain ⟨key, here⟩ := (ordered.mem rank).mp member
  exact exists_get?_iff.mp ⟨_, here⟩

end

/-- The table holds the ranks of the color with their keys. -/
theorem mem_ofColor {pair : Int × Int} :
    pair ∈ ofColor color start infos ↔ get? infos (pair.1 - start) = some (color, pair.2) := by
  induction infos generalizing start with
  | nil =>
    refine iff_of_false not_mem_nil fun here => ?_
    have := exists_get?_iff.mp ⟨_, here⟩
    simp only [length_nil] at this
    omega
  | cons info rest ih =>
    -- The first entry is at the start, and the others are one further.
    have split : get? (info :: rest) (pair.1 - start) = some (color, pair.2) ↔
        pair.1 = start ∧ info = (color, pair.2) ∨
          get? rest (pair.1 - (start + 1)) = some (color, pair.2) := by
      rw [get?_cons, show pair.1 - start - 1 = pair.1 - (start + 1) by omega]
      by_cases first : pair.1 = start
      · have none_before : get? rest (pair.1 - (start + 1)) = none := get?_of_neg (by omega)
        rw [none_before]
        simp [first]
      · rw [if_neg (by omega)]
        simp [first]
    rw [split, ofColor]
    by_cases own : info.1 = color
    · rw [if_pos own, mem_cons, ih]
      refine or_congr_left ?_
      simp only [Prod.ext_iff, own, true_and]
      exact and_congr_right fun _ => eq_comm
    · rw [if_neg own, ih]
      refine (or_iff_right ?_).symm
      rintro ⟨-, rfl⟩
      exact own rfl

theorem length_ofColor : ((ofColor color start infos).length : Int) = colorCount color infos := by
  induction infos generalizing start with
  | nil => rfl
  | cons info rest ih =>
    unfold colorCount at ih ⊢
    by_cases own : info.1 = color
    · rw [ofColor, if_pos own, countP_cons_of_pos (by simpa using own), length_cons]
      have := @ih (start + 1)
      omega
    · rw [ofColor, if_neg own, countP_cons_of_neg (by simpa using own)]
      exact ih

/-- The ranks of the table ascend. -/
theorem sorted_ofColor : (ofColor color start infos).Pairwise fun a b => a.1 < b.1 := by
  induction infos generalizing start with
  | nil => exact .nil
  | cons info rest ih =>
    by_cases own : info.1 = color
    · rw [ofColor, if_pos own]
      refine .cons (fun pair later => ?_) ih
      have := exists_get?_iff.mp ⟨_, mem_ofColor.mp later⟩
      omega
    · rw [ofColor, if_neg own]
      exact ih

/-- The sorted table is a reordering of the table in which keys and then ranks ascend. -/
theorem sorted_table (sorts : Sorts qsort) (color : Int) (infos : List (Int × Int)) :
    ∃ table : List (Int × Int), splitRanks qsort color infos = table.map Prod.fst ∧
      table.Perm (ofColor color 0 infos) ∧ table.Pairwise (rankkeycompare · · < 0) := by
  unfold splitRanks
  simp only
  by_cases several : 1 < colorCount color infos
  · rw [if_pos several]
    have once : (ofColor color 0 infos).Nodup := sorted_ofColor.imp fun {a b} less same => by
      rw [same] at less
      omega
    exact ⟨_, rfl, (sorts _ _ rankkeycompare_consistent).1,
      sorts.strict rankkeycompare_consistent once rankkeycompare_eq_zero⟩
  · rw [if_neg several]
    refine ⟨_, rfl, .refl _, ?_⟩
    -- A table of at most one entry is not sorted.
    rw [← @length_ofColor color infos 0] at several
    match table : ofColor color 0 infos with
    | [] => exact .nil
    | [_] => exact pairwise_singleton _ _
    | _ :: _ :: _ =>
      rw [table] at several
      simp only [length_cons] at several
      omega

/-- Every process computes the order of keys and old ranks. -/
theorem splitRanks_ordered (sorts : Sorts qsort) (color : Int) (infos : List (Int × Int)) :
    Ordered infos color (splitRanks qsort color infos) := by
  obtain ⟨table, ranks, perm, sorted⟩ := sorted_table sorts color infos
  have here {pair : Int × Int} (member : pair ∈ table) :
      get? infos pair.1 = some (color, pair.2) := by
    have := mem_ofColor.mp (perm.mem_iff.mp member)
    rwa [sub_zero] at this
  rw [ranks]
  constructor
  · rw [pairwise_map]
    refine sorted.imp_of_mem fun {a b} first second less => ?_
    exact ⟨_, _, here first, here second, rankkeycompare_neg.mp less⟩
  · intro rank
    rw [mem_map]
    constructor
    · rintro ⟨pair, member, rfl⟩
      exact ⟨pair.2, here member⟩
    · rintro ⟨key, there⟩
      refine ⟨(rank, key), perm.mem_iff.mpr (mem_ofColor.mpr ?_), rfl⟩
      rwa [sub_zero]

/-- Nobody is counted exactly when nobody has the color. -/
theorem colorCount_eq_zero {order : List Int} (ordered : Ordered infos color order) :
    colorCount color infos = 0 ↔ order = [] := by
  have counted : colorCount color infos = 0 ↔ ∀ info ∈ infos, info.1 ≠ color := by
    rw [colorCount, Int.natCast_eq_zero, countP_eq_zero]
    simp only [decide_eq_true_eq]
  rw [counted, eq_nil_iff_forall_not_mem]
  constructor
  · intro none rank member
    obtain ⟨key, here⟩ := (ordered.mem rank).mp member
    exact none _ (mem_of_get? here) rfl
  · rintro none ⟨c, key⟩ member rfl
    obtain ⟨n, here⟩ := mem_iff_getElem?.mp member
    exact none n ((ordered.mem n).mpr ⟨key, get?_natCast n ▸ here⟩)

end Order

section Processes

/-- The processes of one side of a communicator in the order of their ranks, and the color and key
of each. -/
structure Side where
  names : List ProcName
  infos : List (Int × Int)
  all : infos.length = names.length

/-- The color that the process of a rank gives. -/
def Side.color (side : Side) (rank : Fin side.names.length) : Int :=
  (side.infos.get (rank.cast side.all.symm)).1

/-- A group that a process has of a side. -/
structure Sees (me : ProcName) (side : Side) (g : Group) : Prop where
  valid : g.Valid me
  names : g.names = side.names

/-- A process of a side, with its own group of the side. -/
structure Member (side : Side) (rank : Fin side.names.length) where
  env : Setting
  group : Group
  name : env.me = side.names.get rank
  sees : Sees env.me side group

/-- What a process has of the other side. -/
structure Contact (me : ProcName) (other : Side) where
  env : Setting
  group : Group
  name : env.me = me
  sees : Sees env.me other group

variable {side other : Side} {rank : Fin side.names.length} {rc : SplitRc} {order : List Int}
  {g : Group}

theorem Side.get?_infos (side : Side) (rank : Fin side.names.length) :
    ∃ key, get? side.infos (rank : Nat) = some (side.color rank, key) := by
  have inside : (rank : Nat) < side.infos.length := by
    rw [side.all]
    exact rank.isLt
  exact ⟨(side.infos.get (rank.cast side.all.symm)).2,
    (get?_natCast _).trans (List.getElem?_eq_getElem inside)⟩

theorem Sees.procCount {me : ProcName} (sees : Sees me side g) :
    g.procCount = side.names.length := by
  rw [sees.valid.good.count, ← sees.names, Group.names, length_map]

/-- A member of a side has its own rank in the group. -/
theorem Sees.myRank {me : ProcName} {i : Int} (sees : Sees me side g)
    (here : get? side.names i = some me) : g.myRank = i := by
  have good := sees.valid.good
  rw [← sees.names, Group.names, get?_map, Option.map_eq_some_iff] at here
  obtain ⟨entry, found, name⟩ := here
  -- The own process is never a sentinel.
  have own : entry = .proc me := by
    cases entry with
    | proc _ => exact congrArg ProcPtr.proc name
    | sentinel _ => exact absurd (name ▸ mem_of_get? found) good.known
  rw [good.own]
  exact rankOf_of_get? good.nodup_members (own ▸ found)

/-- The group of a color has its members in their order. -/
theorem Sees.incl {env : Setting} {c : Int} (sees : Sees env.me side g)
    (ordered : Ordered side.infos c order) :
    ∃ new, g.incl env order = some new ∧ new.names = pick side.names order ∧
      new.myRank = rankOf undefined order g.myRank := by
  have inside : ∀ r ∈ order, 0 ≤ r ∧ r < g.procCount := fun r member => by
    rw [sees.procCount, ← side.all]
    exact ordered.inside member
  obtain ⟨new, made, includes⟩ := sees.valid.incl inside ordered.nodup
  refine ⟨new, made, ?_, includes.own⟩
  rw [Group.names, includes.members, Group.map_pick, ← sees.names, Group.names]

/-- A process is listed in the order of its color. -/
theorem Ordered.own (ordered : Ordered side.infos (side.color rank) order) :
    ((rank : Nat) : Int) ∈ order :=
  (ordered.mem _).mpr (side.get?_infos rank)

namespace Member

variable (m : Member side rank)

theorem myRank : m.group.myRank = (rank : Nat) :=
  m.sees.myRank ((get?_natCast _).trans (m.name ▸ List.getElem?_eq_getElem rank.isLt))

/-- The split of an intra-communicator, for one process. -/
def splitIntra (qsort : QSort) (rc : SplitRc) : Option (SplitRc × Option SplitComm) :=
  commSplit qsort m.env m.group none (side.color rank) side.infos rc

/-- The split of an inter-communicator, for one process. -/
def splitInter (qsort : QSort) (rc : SplitRc) (contact : Contact m.env.me other) :
    Option (SplitRc × Option SplitComm) :=
  commSplit qsort m.env m.group (some ⟨contact.env, contact.group, other.infos⟩)
    (side.color rank) side.infos rc

/-- The own group of a color has the process at its place in the order. -/
theorem incl (ordered : Ordered side.infos (side.color rank) order) :
    ∃ new, m.group.incl m.env order = some new ∧ new.names = pick side.names order ∧
      get? order new.myRank = some ((rank : Nat) : Int) := by
  obtain ⟨new, made, names, own⟩ := m.sees.incl ordered
  refine ⟨new, made, names, ?_⟩
  rw [own, m.myRank]
  exact get?_rankOf ordered.own

end Member

/-- A process gets the communicator of its color on its own side, in which its rank is its place in
the order, or none if it has no color. -/
def JoinsIntra (rank : Fin side.names.length) (rc : SplitRc) (order : Int → List Int)
    (result : Option (SplitRc × Option SplitComm)) : Prop :=
  if side.color rank = undefined then result = some (rc, none)
  else ∃ comm, result = some (rc, some comm) ∧ comm.inter = false ∧
    comm.localGroup.names = pick side.names (order (side.color rank)) ∧
    comm.remoteGroup = comm.localGroup ∧
    get? (order (side.color rank)) comm.myRank = some ((rank : Nat) : Int)

/-- A process gets the communicator of its color on both sides, or none if it has no color or
nobody on the other side has it. -/
def JoinsInter (other : Side) (rank : Fin side.names.length) (rc : SplitRc)
    (order far : Int → List Int) (result : Option (SplitRc × Option SplitComm)) : Prop :=
  if side.color rank = undefined ∨ far (side.color rank) = [] then result = some (rc, none)
  else ∃ comm, result = some (rc, some comm) ∧ comm.inter = true ∧
    comm.localGroup.names = pick side.names (order (side.color rank)) ∧
    comm.remoteGroup.names = pick other.names (far (side.color rank)) ∧
    get? (order (side.color rank)) comm.myRank = some ((rank : Nat) : Int)

/-- The own color is counted at least once. -/
theorem Side.colorCount_ne_zero (side : Side) (rank : Fin side.names.length) (sorts : Sorts qsort) :
    colorCount (side.color rank) side.infos ≠ 0 := by
  have ordered := splitRanks_ordered sorts (side.color rank) side.infos
  rw [ne_eq, colorCount_eq_zero ordered]
  exact ne_nil_of_mem ordered.own

theorem not_joinsIntra_none (order : Int → List Int) : ¬ JoinsIntra rank rc order none := by
  unfold JoinsIntra
  split_ifs
  · exact nofun
  · exact fun joins => nomatch joins.choose_spec.1

theorem not_joinsInter_none (order far : Int → List Int) :
    ¬ JoinsInter other rank rc order far none := by
  unfold JoinsInter
  split_ifs
  · exact nofun
  · exact fun joins => nomatch joins.choose_spec.1

/-- Inside an intra-communicator only the size of the table can go wrong. -/
theorem Member.splitIntra_iff (m : Member side rank) (sorts : Sorts qsort)
    {order : Int → List Int} (ordered : ∀ c, Ordered side.infos c (order c)) :
    JoinsIntra rank rc order (m.splitIntra qsort rc) ↔ 2 * (side.names.length : Int) ≤ intMax := by
  have same : splitRanks qsort (side.color rank) side.infos = order (side.color rank) :=
    (splitRanks_ordered sorts _ _).unique (ordered _)
  have count := m.sees.procCount
  by_cases fits : 2 * (side.names.length : Int) ≤ intMax
  · refine iff_of_true ?_ fits
    obtain ⟨new, made, names, place⟩ := m.incl (ordered _)
    have result : m.splitIntra qsort rc = some (rc, if side.color rank = undefined then none
        else some ⟨new, new, new.myRank, false⟩) := by
      simp [Member.splitIntra, commSplit, splitGroups, splitsOff, count, fits, same, made,
        side.colorCount_ne_zero rank sorts]
    rw [result]
    unfold JoinsIntra
    split_ifs
    · rfl
    · exact ⟨_, rfl, rfl, names, rfl, place⟩
  · refine iff_of_false ?_ fits
    have result : m.splitIntra qsort rc = none := by
      simp [Member.splitIntra, commSplit, count, fits]
    rw [result]
    exact not_joinsIntra_none order

/-- Between two sides the table of the other one has a size as well. -/
theorem Member.splitInter_iff (m : Member side rank) (contact : Contact m.env.me other)
    (sorts : Sorts qsort) {order far : Int → List Int}
    (ordered : ∀ c, Ordered side.infos c (order c))
    (orderedFar : ∀ c, Ordered other.infos c (far c)) :
    JoinsInter other rank rc order far (m.splitInter qsort rc contact) ↔
      2 * (side.names.length : Int) ≤ intMax ∧ 2 * (other.names.length : Int) ≤ intMax := by
  have same : splitRanks qsort (side.color rank) side.infos = order (side.color rank) :=
    (splitRanks_ordered sorts _ _).unique (ordered _)
  have sameFar : splitRanks qsort (side.color rank) other.infos = far (side.color rank) :=
    (splitRanks_ordered sorts _ _).unique (orderedFar _)
  have count := m.sees.procCount
  have countFar := contact.sees.procCount
  obtain ⟨new, made, names, place⟩ := m.incl (ordered _)
  obtain ⟨remote, madeFar, namesFar, -⟩ := contact.sees.incl (orderedFar (side.color rank))
  -- The code allocates twice the size for its results, in an int.
  by_cases holds : 2 * (side.names.length : Int) ≤ intMax ∧ 2 * (other.names.length : Int) ≤ intMax
  · refine iff_of_true ?_ holds
    obtain ⟨fits, fitsFar⟩ := holds
    have result : m.splitInter qsort rc contact
        = some (rc, if side.color rank = undefined ∨ far (side.color rank) = [] then none
            else some ⟨new, remote, new.myRank, true⟩) := by
      simp [Member.splitInter, commSplit, splitGroups, splitsOff, count, countFar, fits, fitsFar,
        same, sameFar, made, madeFar, side.colorCount_ne_zero rank sorts,
        colorCount_eq_zero (orderedFar (side.color rank))]
    rw [result]
    unfold JoinsInter
    split_ifs
    · rfl
    · exact ⟨_, rfl, rfl, names, namesFar, place⟩
  · refine iff_of_false ?_ holds
    have result : m.splitInter qsort rc contact = none := by
      by_cases fits : 2 * (side.names.length : Int) ≤ intMax
      · have fitsFar : ¬ 2 * (other.names.length : Int) ≤ intMax := fun far => holds ⟨fits, far⟩
        simp [Member.splitInter, commSplit, splitGroups, countFar, fitsFar,
          side.colorCount_ne_zero rank sorts]
      · simp [Member.splitInter, commSplit, count, fits]
    rw [result]
    exact not_joinsInter_none order far

/-- What holds of each process and of the size holds of the size alone if there is nobody. -/
theorem size_of_forall (side : Side)
    (each : ∀ _ : Fin side.names.length, 2 * (side.names.length : Int) ≤ intMax) :
    2 * (side.names.length : Int) ≤ intMax := by
  by_cases some_ : 0 < side.names.length
  · exact each ⟨0, some_⟩
  · simp [show side.names.length = 0 by omega, intMax]

end Processes

/-- With a correct sorting function, the processes of each color form one communicator in the order
of keys and old ranks, on one side or on both, exactly when the tables have a size in `int`. -/
theorem comm_split_iff (sorts : Sorts qsort) (rc : SplitRc) :
    (∀ (side : Side) (member : ∀ rank, Member side rank),
      (∃ order : Int → List Int, (∀ c, Ordered side.infos c (order c)) ∧
        ∀ rank, JoinsIntra rank rc order ((member rank).splitIntra qsort rc)) ↔
      2 * (side.names.length : Int) ≤ intMax) ∧
    ∀ (left right : Side) (lefts : ∀ rank, Member left rank) (rights : ∀ rank, Member right rank)
      (toRight : ∀ rank, Contact (lefts rank).env.me right)
      (toLeft : ∀ rank, Contact (rights rank).env.me left),
      (∃ order far : Int → List Int, (∀ c, Ordered left.infos c (order c)) ∧
        (∀ c, Ordered right.infos c (far c)) ∧
        (∀ rank, JoinsInter right rank rc order far
          ((lefts rank).splitInter qsort rc (toRight rank))) ∧
        ∀ rank, JoinsInter left rank rc far order
          ((rights rank).splitInter qsort rc (toLeft rank))) ↔
      2 * (left.names.length : Int) ≤ intMax ∧ 2 * (right.names.length : Int) ≤ intMax := by
  refine ⟨fun side member => ⟨?_, fun fits => ?_⟩, fun left right lefts rights toRight toLeft =>
    ⟨?_, fun holds => ?_⟩⟩
  · rintro ⟨order, ordered, joins⟩
    exact size_of_forall side fun rank =>
      ((member rank).splitIntra_iff sorts ordered).mp (joins rank)
  · exact ⟨_, fun c => splitRanks_ordered sorts c _, fun rank =>
      ((member rank).splitIntra_iff sorts fun c => splitRanks_ordered sorts c _).mpr fits⟩
  · rintro ⟨order, far, ordered, orderedFar, joinsLeft, joinsRight⟩
    -- Each process that joins tells about its own side.
    have fromLeft := fun rank =>
      ((lefts rank).splitInter_iff (toRight rank) sorts ordered orderedFar).mp (joinsLeft rank)
    have fromRight := fun rank =>
      ((rights rank).splitInter_iff (toLeft rank) sorts orderedFar ordered).mp (joinsRight rank)
    exact ⟨size_of_forall left fun rank => (fromLeft rank).1,
      size_of_forall right fun rank => (fromRight rank).1⟩
  · have ordered := fun c => splitRanks_ordered sorts c left.infos
    have orderedFar := fun c => splitRanks_ordered sorts c right.infos
    refine ⟨_, _, ordered, orderedFar, fun rank => ?_, fun rank => ?_⟩
    · exact ((lefts rank).splitInter_iff (toRight rank) sorts ordered orderedFar).mpr holds
    · exact ((rights rank).splitInter_iff (toLeft rank) sorts orderedFar ordered).mpr holds.symm

/-- Three processes of which the outer two have one color, the last one with the smaller key. -/
def threeColors : Side where
  names := [⟨7, 0⟩, ⟨7, 1⟩, ⟨7, 2⟩]
  infos := [(1, 5), (undefined, 0), (1, 3)]
  all := rfl

/-- A process of three that has them all in a list. -/
def threeMember (rank : Fin threeColors.names.length) : Member threeColors rank where
  env := ⟨threeColors.names.get rank, true, 0, 9⟩
  group := .dense 1 (threeColors.names.map .proc) (rankOf undefined
    (threeColors.names.map ProcPtr.proc) (ProcPtr.proc (threeColors.names.get rank)))
  name := rfl
  sees := by
    refine ⟨.dense 1 (threeColors.names.map .proc) (by decide) (by decide) ?_, rfl⟩
    revert rank
    decide

/-- The two of one color are ordered by their keys, and the third gets nothing. -/
theorem threeColors_split :
    ∃ order : Int → List Int, (∀ c, Ordered threeColors.infos c (order c)) ∧
      ∀ rank, JoinsIntra rank .success order ((threeMember rank).splitIntra insertion .success) :=
  ((comm_split_iff insertion_sorts .success).1 threeColors threeMember).mpr (by decide)

/-- For 2^30 processes of one color the size of the table overflows before anything is split. -/
theorem crowd_split_fails :
    (crowd 1073741824).Valid ⟨7, 0⟩ ∧ (crowd 1073741824).procCount = 1073741824 ∧
      commSplit insertion ⟨⟨7, 0⟩, false, 0, 5⟩ (crowd 1073741824) none 0
        (List.replicate 1073741824 (0, 0)) .success = none := by
  have count := crowd_procCount 1073741824
  refine ⟨crowd_valid (by decide) (by decide), count, ?_⟩
  unfold commSplit
  rw [count, guard, if_neg (by decide)]
  rfl

end EduMpi.Ompi
