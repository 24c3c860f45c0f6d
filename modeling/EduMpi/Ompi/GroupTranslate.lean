import EduMpi.Ompi.GroupLaws

/-! However two groups are stored, a rank is translated to the rank of the same process. -/

namespace EduMpi.Ompi

open Positions List

/-- The ranks in the parent group that sparse data of a number of processes stands for. -/
def Sparse.selected : Sparse → Int → List Int
  | sporadic list, _ => ranksOf list
  | strided o s _, count => stride o s count.toNat
  | bitmap array, _ => onesFrom 0 (bits array)

theorem Sparse.Encodes.selected {size : Int} {data : Sparse} {sel : List Int}
    (encodes : data.Encodes size sel) : data.selected sel.length = sel := by
  cases encodes with
  | sporadic list filled => rfl
  | strided o s n positive some => simp [Sparse.selected, stride]
  | bitmap array length => rfl

namespace Group

/-- The processes of a group, in the order of their ranks. -/
def members : Group → List ProcPtr
  | dense _ procs _ => procs
  | sparse _ parent procCount _ data => pick parent.members (data.selected procCount)

/-- The names of the processes of a group. -/
def names (g : Group) : List ProcName := g.members.map ProcPtr.name

/-- The groups of a process: the empty one, lists of different processes, and selections from other
groups, to any depth. The local process is never stored as a sentinel. -/
inductive Valid (me : ProcName) : Group → Prop where
  | empty : Valid me empty
  | dense (addr : Nat) (procs : List ProcPtr) : procs ≠ [] → (procs.map ProcPtr.name).Nodup →
      ProcPtr.sentinel me ∉ procs →
      Valid me (dense addr procs (rankOf undefined procs (.proc me)))
  | sparse {parent : Group} {data : Sparse} {sel : List Int} (addr : Nat) : Valid me parent →
      data.Encodes parent.procCount sel → sel ≠ [] → sel.Nodup →
      (∀ rank ∈ sel, 0 ≤ rank ∧ rank < parent.procCount) →
      Valid me (sparse addr parent sel.length (rankOf undefined sel parent.myRank) data)

theorem map_pick {α β : Type} (f : α → β) (xs : List α) (is : List Int) :
    (pick xs is).map f = pick (xs.map f) is := by
  simp only [pick, map_filterMap, get?_map]

/-- What holds of every group: its size and its own rank are right, and a process is listed once. -/
structure Good (me : ProcName) (g : Group) : Prop where
  count : g.procCount = g.members.length
  distinct : g.names.Nodup
  known : ProcPtr.sentinel me ∉ g.members
  own : g.myRank = rankOf undefined g.members (.proc me)
  lookup : ∀ rank, 0 ≤ rank → rank < g.procCount → g.procPtrRaw rank = get? g.members rank
  filled : g.members = [] → g = empty

namespace Good

variable {me : ProcName} {g : Group} {rank : Int}

theorem nodup_members (good : g.Good me) : g.members.Nodup := good.distinct.of_map

/-- The own rank is not a rank, or it is the rank of the local process. -/
theorem own_cases (good : g.Good me) :
    (g.myRank = undefined ∧ ProcPtr.proc me ∉ g.members) ∨
      (0 ≤ g.myRank ∧ g.myRank < g.procCount ∧ get? g.members g.myRank = some (.proc me)) := by
  rw [good.own]
  by_cases member : ProcPtr.proc me ∈ g.members
  · have here := @get?_rankOf _ g.members (.proc me) undefined _ member
    have bounds := exists_get?_iff.mp ⟨_, here⟩
    rw [good.count]
    exact .inr ⟨bounds.1, bounds.2, here⟩
  · exact .inl ⟨rankOf_of_notMem member, member⟩

theorem procName (good : g.Good me) (low : 0 ≤ rank) (high : rank < g.procCount) :
    g.procName rank = get? g.names rank := by
  rw [Group.procName, good.lookup rank low high, names, get?_map]

end Good

/-- What a selection of different ranks has of a good group. -/
theorem Good.selection {me : ProcName} {g : Group} {sel : List Int} (good : g.Good me)
    (once : sel.Nodup) (inside : ∀ rank ∈ sel, 0 ≤ rank ∧ rank < g.members.length) :
    ((pick g.members sel).map ProcPtr.name).Nodup ∧ ProcPtr.sentinel me ∉ pick g.members sel ∧
      rankOf undefined (pick g.members sel) (.proc me) = rankOf undefined sel g.myRank := by
  -- A selection has no process that the group does not have.
  have within {p : ProcPtr} (member : p ∈ pick g.members sel) : p ∈ g.members := by
    obtain ⟨rank, -, here⟩ := mem_pick.mp member
    exact mem_of_get? here
  refine ⟨?_, fun member => good.known (within member), ?_⟩
  · rw [map_pick]
    exact nodup_pick good.distinct once
  · rcases good.own_cases with ⟨own, absent⟩ | ⟨low, high, here⟩
    · have outside : g.myRank ∉ sel := by
        intro member
        have := (inside _ member).1
        rw [own] at this
        exact absurd this (by decide)
      rw [rankOf_of_notMem outside, rankOf_of_notMem fun member => absent (within member)]
    · exact rankOf_pick inside good.nodup_members once here

/-- The ranks of a good group are the places of its members. -/
theorem Good.within {me : ProcName} {g : Group} {sel : List Int} (good : g.Good me)
    (inside : ∀ rank ∈ sel, 0 ≤ rank ∧ rank < g.procCount) :
    ∀ rank ∈ sel, 0 ≤ rank ∧ rank < g.members.length :=
  fun rank member => good.count ▸ inside rank member

/-- Selecting from a good group gives a good group. -/
theorem Good.sparse {me : ProcName} {parent : Group} {data : Sparse} {sel : List Int} (addr : Nat)
    (good : parent.Good me) (encodes : data.Encodes parent.procCount sel) (some : sel ≠ [])
    (once : sel.Nodup) (inside : ∀ rank ∈ sel, 0 ≤ rank ∧ rank < parent.procCount) :
    (Group.sparse addr parent sel.length (rankOf undefined sel parent.myRank) data).Good me := by
  have inside' := good.within inside
  have picked : (Group.sparse addr parent sel.length (rankOf undefined sel parent.myRank)
      data).members = pick parent.members sel := by rw [members, encodes.selected]
  have length := length_pick inside'
  obtain ⟨distinct, known, own⟩ := good.selection once inside'
  rw [← picked] at length distinct known own
  refine ⟨by rw [length]; rfl, distinct, known, own.symm, ?_, ?_⟩
  · -- The rank in the parent group is looked up there.
    intro rank low high
    have read := encodes.toParent low high
    obtain ⟨q, here⟩ := exists_get?_iff.mpr ⟨low, high⟩
    have bounds := inside q (mem_of_get? here)
    have other : parent ≠ empty := by
      rintro rfl
      have : (empty.procCount : Int) = 0 := rfl
      omega
    rw [procPtrRaw, if_neg other, read, picked, get?_pick inside', here]
    exact good.lookup q bounds.1 bounds.2
  · intro none
    rw [none] at length
    exact absurd (length_eq_zero_iff.mp length.symm) some

theorem Valid.good {me : ProcName} {g : Group} (valid : g.Valid me) : g.Good me := by
  induction valid with
  | empty =>
    refine ⟨rfl, nodup_nil, not_mem_nil, rfl, fun rank low high => ?_, fun _ => rfl⟩
    have : (Group.empty.procCount : Int) = 0 := rfl
    omega
  | dense addr procs some distinct known =>
    exact ⟨rfl, distinct, known, rfl, fun rank low high => rfl, fun none => absurd none some⟩
  | sparse addr valid encodes some once inside good =>
    exact good.sparse addr encodes some once inside

/-- The search from a rank on finds the first process of that name. -/
theorem searchRank_from {g : Group} {name : ProcName} {rest : List ProcName} {start : Nat}
    (read : ∀ i (inside : i < rest.length), g.procName (start + i : Nat) = some rest[i]) :
    g.searchRank name (List.range' start rest.length)
      = some (if name ∈ rest then start + rankOf undefined rest name else undefined) := by
  -- The induction goes along the names still to be compared.
  induction rest generalizing start with
  | nil => rfl
  | cons name2 rest ih =>
    have first := read 0 (Nat.succ_pos _)
    rw [Nat.add_zero] at first
    rw [length_cons, List.range'_succ, searchRank, first]
    by_cases same : name = name2
    · subst same
      simp [compareProcs_eq_zero, rankOf_cons_self]
    have other : compareProcs name name2 ≠ 0 := mt compareProcs_eq_zero.mp same
    simp only [getElem_cons_zero, Option.bind_eq_bind, Option.bind_some, if_neg other]
    rw [ih fun i inside => ?_]
    · -- The name is found further on, or nowhere.
      by_cases later : name ∈ rest
      · rw [if_pos later, if_pos (mem_cons_of_mem _ later),
          rankOf_cons_of_ne (Ne.symm same) later]
        congr 1
        omega
      · rw [if_neg later, if_neg (not_mem_cons_of_ne_of_not_mem same later)]
    · rw [show start + 1 + i = start + (i + 1) by omega]
      exact read (i + 1) (Nat.succ_lt_succ inside)

/-- The generic search gives the rank of the process of that name. -/
theorem Good.searchRank {me : ProcName} {g : Group} (good : g.Good me) (name : ProcName) :
    g.searchRank name g.ranks = some (rankOf undefined g.names name) := by
  have count : g.procCount.toNat = g.names.length := by
    rw [good.count, names, length_map, Int.toNat_natCast]
  have found := @searchRank_from g name g.names 0 fun i inside => by
    rw [Nat.zero_add, good.procName (by omega) (by omega), get?_natCast,
      List.getElem?_eq_getElem inside]
  rw [ranks, count, range_eq_range', found]
  by_cases member : name ∈ g.names
  · rw [if_pos member, Nat.cast_zero, Int.zero_add]
  · rw [if_neg member, rankOf_of_notMem member]

/-- The rank in the second group of the process with a rank in the first one. -/
def rankIn (g1 g2 : Group) (rank : Int) : Int :=
  if rank = procNull then procNull
  else ((get? g1.names rank).map (rankOf undefined g2.names)).getD undefined

section Translate

variable {me : ProcName} {g1 g2 : Group} {rank : Int} {data : Sparse}

theorem Good.translateRank (good1 : g1.Good me) (good2 : g2.Good me)
    (each : rank = procNull ∨ 0 ≤ rank ∧ rank < g1.procCount) :
    g1.translateRank g2 rank = some (g1.rankIn g2 rank) := by
  unfold Group.translateRank rankIn
  by_cases null : rank = procNull
  · rw [if_pos null, if_pos null]
  obtain ⟨low, high⟩ := each.resolve_left null
  have inside : rank < g1.names.length := by
    rw [names, length_map, ← good1.count]
    exact high
  obtain ⟨name, here⟩ := exists_get?_iff.mpr ⟨low, inside⟩
  rw [if_neg null, if_neg null, good1.procName low high, here]
  exact good2.searchRank name

/-- From child to parent the shortcut agrees with the search. -/
theorem Good.toParent {sel : List Int} (good : g2.Good me) (encodes : data.Encodes g2.procCount sel)
    (inside : ∀ rank ∈ sel, 0 ≤ rank ∧ rank < g2.procCount)
    (picked : g1.members = pick g2.members sel)
    (each : rank = procNull ∨ 0 ≤ rank ∧ rank < sel.length) :
    data.toParent rank = some (g1.rankIn g2 rank) := by
  unfold rankIn
  by_cases null : rank = procNull
  · rw [null]
    exact if_pos rfl
  obtain ⟨low, high⟩ := each.resolve_left null
  obtain ⟨q, here⟩ := exists_get?_iff.mpr ⟨low, high⟩
  have inside' : ∀ rank ∈ sel, 0 ≤ rank ∧ rank < g2.names.length := fun rank member => by
    rw [names, length_map, ← good.count]
    exact inside rank member
  obtain ⟨name, there⟩ := exists_get?_iff.mpr (inside' q (mem_of_get? here))
  -- The process stands in the parent group at the rank that was read.
  have renamed : g1.names = pick g2.names sel := by rw [names, picked, map_pick, names]
  rw [if_neg null, encodes.toParent low high, renamed, get?_pick inside', here,
    Option.bind_some, there, Option.map_some, Option.getD_some,
    rankOf_of_get? good.distinct there]

/-- From parent to child the shortcut agrees with the search. -/
theorem Good.toChild {sel : List Int} (good : g1.Good me) (encodes : data.Encodes g1.procCount sel)
    (once : sel.Nodup) (inside : ∀ rank ∈ sel, 0 ≤ rank ∧ rank < g1.procCount)
    (picked : g2.members = pick g1.members sel)
    (each : rank = procNull ∨ 0 ≤ rank ∧ rank < g1.procCount) :
    data.toChild rank = some (g1.rankIn g2 rank) := by
  unfold rankIn
  by_cases null : rank = procNull
  · rw [null]
    exact if_pos rfl
  obtain ⟨low, high⟩ := each.resolve_left null
  have length : (g1.names.length : Int) = g1.procCount := by
    rw [names, length_map, good.count]
  have inside' : ∀ rank ∈ sel, 0 ≤ rank ∧ rank < g1.names.length :=
    fun rank member => length ▸ inside rank member
  obtain ⟨name, here⟩ := exists_get?_iff.mpr ⟨low, length ▸ high⟩
  rw [if_neg null, encodes.toChild low high, here, Option.map_some, Option.getD_some]
  have renamed : g2.names = pick g1.names sel := by rw [names, picked, map_pick, names]
  rw [renamed, rankOf_pick inside' good.distinct once here]

theorem mapM_eq_some {α β : Type} {f : α → Option β} {h : α → β} {xs : List α}
    (each : ∀ a ∈ xs, f a = some (h a)) : xs.mapM f = some (xs.map h) := by
  induction xs with
  | nil => rfl
  | cons a xs ih =>
    rw [mapM_cons, each a mem_cons_self, ih fun b member => each b (mem_cons_of_mem a member)]
    rfl

/-- What a group knows about itself as a child of another one. -/
theorem Valid.of_sparseIn (valid : g1.Valid me) (child : g1.sparseIn g2 = some data) :
    ∃ sel, data.Encodes g2.procCount sel ∧ sel.Nodup ∧
      (∀ rank ∈ sel, 0 ≤ rank ∧ rank < g2.procCount) ∧ g1.procCount = sel.length ∧
      g1.members = pick g2.members sel := by
  cases valid with
  | empty => cases child
  | dense addr procs some distinct known => cases child
  | @sparse parent data' sel addr valid encodes some once inside =>
    change (if parent = g2 then Option.some data' else none) = Option.some data at child
    by_cases same : parent = g2
    · rw [if_pos same] at child
      obtain rfl := Option.some.inj child
      subst same
      exact ⟨sel, encodes, once, inside, rfl, by rw [members, encodes.selected]⟩
    · rw [if_neg same] at child
      cases child

/-- Apart from the empty group every translation is the generic one. -/
theorem Valid.translateRanks (valid1 : g1.Valid me) (valid2 : g2.Valid me) {ranks : List Int}
    (some1 : g1 ≠ .empty) (some2 : g2 ≠ .empty)
    (each : ∀ rank ∈ ranks, rank = procNull ∨ 0 ≤ rank ∧ rank < g1.procCount) :
    g1.translateRanks ranks g2 = some (ranks.map (g1.rankIn g2)) := by
  have good1 := valid1.good
  have good2 := valid2.good
  unfold Group.translateRanks
  rw [if_neg (not_or.mpr ⟨some1, some2⟩)]
  cases up : g1.sparseIn g2 with
  | some data =>
    obtain ⟨sel, encodes, once, inside, count, picked⟩ := valid1.of_sparseIn up
    refine mapM_eq_some fun rank member => good2.toParent encodes inside picked ?_
    rw [← count]
    exact each rank member
  | none =>
    cases down : g2.sparseIn g1 with
    | some data =>
      obtain ⟨sel, encodes, once, inside, count, picked⟩ := valid2.of_sparseIn down
      exact mapM_eq_some fun rank member =>
        good1.toChild encodes once inside picked (each rank member)
    | none =>
      exact mapM_eq_some fun rank member => good1.translateRank good2 (each rank member)

end Translate

end Group

/-- A list of ranks is translated process by process, exactly unless the null process is asked for
in the empty group; the shortcuts between parent and child agree with the search over all ranks. -/
theorem translateRanks_sound_iff {me : ProcName} {g1 g2 : Group} {ranks : List Int}
    (valid1 : g1.Valid me) (valid2 : g2.Valid me)
    (each : ∀ rank ∈ ranks, rank = procNull ∨ 0 ≤ rank ∧ rank < g1.procCount) :
    (g1.translateRanks ranks g2 = some (ranks.map (g1.rankIn g2)) ↔
        (procNull ∈ ranks → g1 ≠ .empty ∧ g2 ≠ .empty)) ∧
      (g1 ≠ .empty → g2 ≠ .empty →
        g1.translateRanks ranks g2 = ranks.mapM (g1.translateRank g2)) := by
  refine ⟨?_, fun some1 some2 => ?_⟩
  · by_cases some : g1 ≠ .empty ∧ g2 ≠ .empty
    · exact ⟨fun _ _ => some, fun _ => valid1.translateRanks valid2 some.1 some.2 each⟩
    · -- With an empty group everything is undefined, the null process included.
      have either : g1 = .empty ∨ g2 = .empty := by
        by_contra neither
        exact some (not_or.mp neither)
      have all : g1.translateRanks ranks g2 = Option.some (ranks.map fun _ => undefined) :=
        if_pos either
      rw [all, Option.some_inj]
      constructor
      · intro same null
        have kept := (map_inj_left.mp same) procNull null
        rw [Group.rankIn, if_pos rfl] at kept
        exact absurd kept (by decide)
      · intro none
        refine map_inj_left.mpr fun rank member => ?_
        have valid : rank ≠ procNull := fun null => some (none (null ▸ member))
        rw [Group.rankIn, if_neg valid]
        rcases either with rfl | rfl
        · have := (each rank member).resolve_left valid
          have : (Group.empty.procCount : Int) = 0 := rfl
          omega
        · cases get? g1.names rank <;> rfl
  · rw [valid1.translateRanks valid2 some1 some2 each]
    exact (Group.mapM_eq_some fun rank member =>
      valid1.good.translateRank valid2.good (each rank member)).symm

/-- Three processes, of which the second one is the local one. -/
def threeProcs : Group :=
  .dense 1 [.sentinel ⟨7, 0⟩, .proc ⟨7, 1⟩, .sentinel ⟨7, 2⟩] 1

/-- The first and the last of them, stored by their distance. -/
def outerTwo : Group := .sparse 2 threeProcs 2 undefined (.strided 0 2 2)

theorem threeProcs_valid : threeProcs.Valid ⟨7, 1⟩ :=
  .dense 1 [.sentinel ⟨7, 0⟩, .proc ⟨7, 1⟩, .sentinel ⟨7, 2⟩] (by decide) (by decide) (by decide)

theorem outerTwo_valid : outerTwo.Valid ⟨7, 1⟩ :=
  .sparse 2 threeProcs_valid (.strided 0 2 2 (by decide) (by decide)) (by decide) (by decide)
    (by decide)

/-- Any number of processes, of which the first one is the local one. -/
def crowd (n : Nat) : Group :=
  let procs := (List.range n).map fun i => ProcPtr.proc ⟨7, UInt32.ofNat i⟩
  .dense 1 procs (rankOf undefined procs (.proc ⟨7, 0⟩))

theorem crowd_procCount (n : Nat) : (crowd n).procCount = n := by
  simp [crowd, Group.procCount]

theorem crowd_names (n : Nat) :
    (crowd n).names = (List.range n).map fun i => (⟨7, UInt32.ofNat i⟩ : ProcName) := by
  simp [crowd, Group.names, Group.members, ProcPtr.name]

theorem crowd_valid {n : Nat} (some : 0 < n) (few : n ≤ 2 ^ 32) : (crowd n).Valid ⟨7, 0⟩ := by
  refine .dense 1 _ ?_ ?_ ?_
  · simp [some.ne']
  · -- The numbers of the processes are different as long as they fit.
    have names := crowd_names n
    simp only [crowd, Group.names, Group.members] at names
    rw [names]
    refine List.Nodup.map_on (fun i low j high same => ?_) List.nodup_range
    have equal := congrArg (fun name : ProcName => name.vpid.toNat) same
    simp only [UInt32.toNat_ofNat', List.mem_range] at equal low high
    omega
  · simp

/-- Down to the child group and back up, with the null process in between. -/
theorem outerTwo_translates :
    threeProcs.translateRanks [2, procNull, 1] outerTwo = some [1, procNull, undefined] ∧
      outerTwo.translateRanks [1, procNull] threeProcs = some [2, procNull] :=
  ⟨(translateRanks_sound_iff threeProcs_valid outerTwo_valid (by decide)).1.mpr (by decide),
    (translateRanks_sound_iff outerTwo_valid threeProcs_valid (by decide)).1.mpr (by decide)⟩

/-- In the empty group the null process becomes undefined. -/
theorem empty_loses_procNull :
    threeProcs.Valid ⟨7, 1⟩ ∧ threeProcs.translateRanks [procNull] .empty = some [undefined] ∧
      [procNull].map (threeProcs.rankIn .empty) = [procNull] :=
  ⟨threeProcs_valid, rfl, rfl⟩

end EduMpi.Ompi
