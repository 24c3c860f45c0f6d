import EduMpi.Opal.HashTableLaws
import EduMpi.Opal.ProcTable
import Mathlib.Data.List.Nodup
import Mathlib.Data.Prod.Basic

/-! The process table stores the map its calls put together, as long as it is not emptied at
once. -/

namespace EduMpi.Opal

open Slots List Option
open Function (update_eq_self update_of_ne update_self update)

namespace ProcState

variable {V : Type} {s : ProcState V} {key : ProcessName} {ref : Nat}

/-- A table of a job holds the processes of the job. -/
structure Holds (vpids : HashTable UInt32 V) (live : UInt32 → Option V) : Prop where
  rep : vpids.Represents UInt32.toNat live
  standard : vpids.Standard

/-- The jobs are in the table of jobs, each with its own table of its processes. -/
structure Owns (s : ProcState V) (jobs : UInt32 → Option Nat) : Prop where
  rep : s.pt.super.Represents UInt32.toNat jobs
  standard : s.pt.super.Standard
  tables : ∀ jobid ref, jobs jobid = some ref →
    ∃ vpids, s.pt.heap ref = some vpids ∧ Holds vpids (fun vpid => s.live (jobid, vpid))
  apart : ∀ a b ref, jobs a = some ref → jobs b = some ref → a = b
  old : ∀ jobid ref, jobs jobid = some ref → ref < s.pt.fresh
  absent : ∀ jobid, jobs jobid = none → ∀ vpid, s.live (jobid, vpid) = none

/-- Every job in the table of jobs has a process. -/
def Filled (jobs : UInt32 → Option Nat) (live : ProcessName → Option V) : Prop :=
  ∀ jobid, jobs jobid ≠ none → ∃ vpid, live (jobid, vpid) ≠ none

/-- An update of the map at a process is an update at its number in its job. -/
theorem update_job (live : ProcessName → Option V) (key : ProcessName) (value : Option V) :
    (fun vpid => update live key value (key.1, vpid))
      = update (fun vpid => live (key.1, vpid)) key.2 value :=
  Function.update_comp_eq_of_injective live (Prod.mk_right_injective key.1) key.2 value

/-- Other jobs are not concerned. -/
theorem update_other_job (live : ProcessName → Option V) (key : ProcessName) (value : Option V)
    {jobid : UInt32} (other : jobid ≠ key.1) :
    (fun vpid => update live key value (jobid, vpid)) = fun vpid => live (jobid, vpid) :=
  Function.update_comp_eq_of_forall_ne live value fun _ equal => other (congrArg Prod.fst equal)

variable {jobs : UInt32 → Option Nat}

/-- A lookup answers as the map does. -/
theorem Owns.getValue (owns : Owns s jobs) (key : ProcessName) :
    s.pt.getValue key = some (match s.live key with
      | some value => (.success, some value)
      | none => (.errNotFound, none)) := by
  unfold ProcTable.getValue
  rw [owns.rep.getValue]
  cases job : jobs key.1 with
  | none =>
    have none_live : s.live key = none := owns.absent key.1 job key.2
    rw [none_live]
    rfl
  | some ref =>
    obtain ⟨vpids, allocated, holds⟩ := owns.tables key.1 ref job
    simp only [bind_eq_bind, bind_some, allocated]
    exact holds.rep.getValue key.2

/-- A job's table can be replaced by one that holds the map after a call for that job. -/
theorem Owns.replace (owns : Owns s jobs) {value : Option V} (job : jobs key.1 = some ref)
    {vpids : HashTable UInt32 V}
    (holds : Holds vpids (update (fun vpid => s.live (key.1, vpid)) key.2 value)) :
    Owns ⟨{ s.pt with heap := update s.pt.heap ref (some vpids) },
      update s.live key value⟩ jobs where
  rep := owns.rep
  standard := owns.standard
  tables jobid other job' := by
    by_cases same : jobid = key.1
    · subst same
      rw [job, some.injEq] at job'
      subst job'
      exact ⟨vpids, update_self .., update_job s.live key value ▸ holds⟩
    · -- The tables of other jobs are other objects.
      obtain ⟨table, allocated, held⟩ := owns.tables jobid other job'
      have apart : other ≠ ref := fun equal => same (owns.apart _ _ ref (equal ▸ job') job)
      exact ⟨table, (update_of_ne apart ..).trans allocated,
        update_other_job s.live key value same ▸ held⟩
  apart := owns.apart
  old := owns.old
  absent jobid none_job vpid := by
    have other := (ne_of_holds none_job job).symm
    exact (congrFun (update_other_job s.live key value other) vpid).trans
      (owns.absent jobid none_job vpid)

/-- The calls whose allocations succeed, with the table emptied at once only when it has no
job. -/
def Fits (s : ProcState V) : ProcAction V → Prop
  | .setValue key value => (s.pt.setValue key value).map Prod.fst ≠ some .errOutOfResource
  | .removeValue _ => True
  | .removeAll => s.pt.super.size = 0

instance (s : ProcState V) : DecidablePred s.Fits
  | .setValue _ _ => inferInstanceAs (Decidable (¬ _ = _))
  | .removeValue _ => isTrue trivial
  | .removeAll => inferInstanceAs (Decidable (_ = _))

/-- A value joins the table of a job that has one. -/
theorem Owns.setVpid (owns : Owns s jobs) (key : ProcessName) (value : V)
    (job : jobs key.1 = some ref) :
    ∃ rc pt, s.pt.setVpid ref key.2 value = some (rc, pt)
      ∧ (rc = .success ∨ rc = .errOutOfResource)
      ∧ (rc = .success → Owns ⟨pt, update s.live key (some value)⟩ jobs) := by
  obtain ⟨vpids, allocated, holds⟩ := owns.tables key.1 ref job
  obtain ⟨rc, after, sets, codes, kept⟩ :=
    holds.rep.setValue_standard holds.standard key.2 value
  refine ⟨rc, { s.pt with heap := update s.pt.heap ref (some after) }, ?_, codes, fun success => ?_⟩
  · simp only [ProcTable.setVpid, allocated, bind_eq_bind, bind_some, sets]
    rfl
  · obtain ⟨rep, standard⟩ := kept success
    exact owns.replace job ⟨rep, standard⟩

/-- A new job gets an empty table of its own. -/
theorem Owns.newVpids (owns : Owns s jobs) {jobid : UInt32} (absent : jobs jobid = none) :
    ∃ rc pt, s.pt.newVpids jobid = some (rc, pt)
      ∧ (rc = .success ∨ rc = .errOutOfResource)
      ∧ (rc = .success → Owns ⟨pt, s.live⟩ (update jobs jobid (some s.pt.fresh))) := by
  obtain ⟨rc, vpids, starts, codes, fresh⟩ :=
    HashTable.init_spec (V := V) UInt32.toNat s.pt.vpidsSize
  unfold ProcTable.newVpids
  simp only [starts, bind_eq_bind, bind_some]
  -- The new table may not be allocated, and neither may the entry of the job.
  rcases codes with rfl | rfl
  · obtain ⟨rc, super, sets, codes, kept⟩ :=
      owns.rep.setValue_standard owns.standard jobid s.pt.fresh
    rw [if_neg (by simp)]
    simp only [sets]
    rcases codes with rfl | rfl
    · obtain ⟨rep, standard⟩ := kept rfl
      obtain ⟨emptyRep, emptyStandard⟩ := fresh rfl
      have noProcess : (fun vpid => s.live (jobid, vpid)) = fun _ => none :=
        funext (owns.absent jobid absent)
      refine ⟨_, _, rfl, .inl rfl, fun _ => ⟨rep, standard, fun job ref found => ?_,
        fun a b ref foundA foundB => ?_, fun job ref found => ?_, fun job none_job vpid => ?_⟩⟩
      -- A job found behind the insertion is the new one, or it was there with an older table.
      · rcases holds_update found with ⟨rfl, new⟩ | ⟨-, old⟩
        · cases new
          exact ⟨vpids, update_self .., noProcess ▸ emptyRep, emptyStandard⟩
        · obtain ⟨table, allocated, holds⟩ := owns.tables job ref old
          exact ⟨table, (update_of_ne (owns.old job ref old).ne ..).trans allocated, holds⟩
      · -- The new table is younger than every other one.
        rcases holds_update foundA with ⟨rfl, new⟩ | ⟨-, oldA⟩ <;>
          rcases holds_update foundB with ⟨rfl, new'⟩ | ⟨-, oldB⟩
        · rfl
        · cases new
          exact absurd (owns.old b _ oldB) (Nat.lt_irrefl _)
        · cases new'
          exact absurd (owns.old a _ oldA) (Nat.lt_irrefl _)
        · exact owns.apart a b ref oldA oldB
      · rcases holds_update found with ⟨-, new⟩ | ⟨-, old⟩
        · cases new
          exact Nat.lt_succ_self _
        · exact Nat.lt_succ_of_lt (owns.old job ref old)
      · have other := (ne_of_holds none_job (update_self jobid (some s.pt.fresh) jobs)).symm
        rw [update_of_ne other] at none_job
        exact owns.absent job none_job vpid
    · exact ⟨_, _, rfl, .inr rfl, nofun⟩
  · exact ⟨_, _, rfl, .inr rfl, nofun⟩

/-- Every job has a process, and its table holds its processes. -/
def Inv (s : ProcState V) : Prop := ∃ jobs, Owns s jobs ∧ Filled jobs s.live

/-- Storing a value returns, and behind it the map has the value unless an allocation failed. -/
theorem Inv.setValue (inv : Inv s) (key : ProcessName) (value : V) :
    ∃ rc pt, s.pt.setValue key value = some (rc, pt)
      ∧ (rc = .success ∨ rc = .errOutOfResource)
      ∧ (rc = .success → Inv ⟨pt, update s.live key (some value)⟩) := by
  obtain ⟨jobs, owns, filled⟩ := inv
  -- The job of the new process has that process, and no process goes.
  have stillFilled (job : UInt32) (before : job = key.1 ∨ jobs job ≠ none) :
      ∃ vpid, update s.live key (some value) (job, vpid) ≠ none := by
    by_cases same : job = key.1
    · refine ⟨key.2, ?_⟩
      rw [same]
      rw [update_self]
      exact some_ne_none _
    · obtain ⟨vpid, process⟩ := filled job (before.resolve_left same)
      exact ⟨vpid, (congrFun (update_other_job s.live key (some value) same) vpid).symm ▸ process⟩
  unfold ProcTable.setValue
  rw [owns.rep.getValue]
  -- The first process of a job also creates its table.
  cases job : jobs key.1 with
  | some ref =>
    obtain ⟨rc, pt, sets, codes, kept⟩ := owns.setVpid key value job
    exact ⟨rc, pt, sets, codes, fun success => ⟨jobs, kept success, fun other found =>
      stillFilled other (.inr found)⟩⟩
  | none =>
    obtain ⟨rc, grown, creates, codes, kept⟩ := owns.newVpids job
    simp only [creates]
    rcases codes with rfl | rfl
    · obtain ⟨rc, pt, sets, codes, kept⟩ :=
        (kept rfl).setVpid key value (update_self ..)
      refine ⟨rc, pt, sets, codes, fun success => ⟨_, kept success, fun other found => ?_⟩⟩
      refine stillFilled other ?_
      by_cases same : other = key.1
      · exact .inl same
      · rw [update_of_ne same] at found
        exact .inr found
    · exact ⟨_, _, rfl, .inr rfl, nofun⟩

/-- A job without processes is taken out of the table of jobs, and its table is released. -/
theorem Owns.release (owns : Owns s jobs) (job : jobs key.1 = some ref)
    {super : HashTable UInt32 Nat}
    (rep : super.Represents UInt32.toNat (update jobs key.1 none))
    (standard : super.Standard)
    (empty : ∀ vpid, update (fun vpid => s.live (key.1, vpid)) key.2 none vpid = none) :
    Owns ⟨{ s.pt with super := super, heap := update s.pt.heap ref none },
      update s.live key none⟩ (update jobs key.1 none) := by
  -- Only other jobs are left, and they were there before.
  have other {jobid ref'} (found : update jobs key.1 none jobid = some ref') :
      jobid ≠ key.1 ∧ jobs jobid = some ref' := (holds_update found).resolve_left nofun
  refine ⟨rep, standard, fun jobid ref' found => ?_, fun a b ref' foundA foundB => ?_,
    fun jobid ref' found => ?_, fun jobid none_job vpid => ?_⟩
  · obtain ⟨different, before⟩ := other found
    obtain ⟨vpids, allocated, holds⟩ := owns.tables jobid ref' before
    have apart : ref' ≠ ref := fun same => different (owns.apart _ _ ref (same ▸ before) job)
    exact ⟨vpids, (update_of_ne apart ..).trans allocated,
      update_other_job s.live key none different ▸ holds⟩
  · exact owns.apart a b ref' (other foundA).2 (other foundB).2
  · exact owns.old jobid ref' (other found).2
  · by_cases same : jobid = key.1
    · rw [same]
      exact (congrFun (update_job s.live key none) vpid).trans (empty vpid)
    · rw [update_of_ne same] at none_job
      exact (congrFun (update_other_job s.live key none same) vpid).trans
        (owns.absent jobid none_job vpid)

/-- Removing a process returns, and behind it the map does not have the process. -/
theorem Inv.removeValue (inv : Inv s) (key : ProcessName) :
    ∃ pt, s.pt.removeValue key
        = some (if (s.live key).isSome then .success else .errNotFound, pt)
      ∧ Inv ⟨pt, update s.live key none⟩ := by
  obtain ⟨jobs, owns, filled⟩ := inv
  -- Jobs other than the process's keep their processes.
  have others (job : UInt32) (found : jobs job ≠ none) (other : job ≠ key.1) :
      ∃ vpid, update s.live key none (job, vpid) ≠ none := by
    obtain ⟨vpid, process⟩ := filled job found
    exact ⟨vpid, (congrFun (update_other_job s.live key none other) vpid).symm ▸ process⟩
  unfold ProcTable.removeValue
  rw [owns.rep.getValue]
  cases job : jobs key.1 with
  | none =>
    have none_live : s.live key = none := owns.absent key.1 job key.2
    refine ⟨s.pt, by rw [none_live]; rfl, jobs, ?_⟩
    rw [← none_live, update_eq_self]
    exact ⟨owns, filled⟩
  | some ref =>
    obtain ⟨vpids, allocated, holds⟩ := owns.tables key.1 ref job
    obtain ⟨rc, after, removes, rep, follows, code⟩ := holds.rep.removeValue key.2
    simp only [bind_eq_bind, bind_some, allocated, removes]
    rw [← code]
    -- The last process of a job takes its table with it.
    split
    · rename_i emptied
      obtain ⟨code', super, takes, superRep, superFollows, -⟩ := owns.rep.removeValue key.1
      simp only [takes]
      refine ⟨_, rfl, _, owns.release job superRep (owns.standard.follows superFollows)
        (rep.size_eq_zero.mp emptied.2), fun other found => ?_⟩
      have different : other ≠ key.1 := by
        rintro rfl
        exact found (update_self ..)
      rw [update_of_ne different] at found
      exact others other found different
    · rename_i notEmptied
      refine ⟨_, rfl, jobs, owns.replace job ⟨rep, holds.standard.follows follows⟩,
        fun other found => ?_⟩
      by_cases same : other = key.1
      · subst same
        by_cases present : (s.live key).isSome
        · -- The process went, but the table still has one.
          rw [if_pos present] at code
          have left : ¬ after.size = 0 := fun zero => notEmptied ⟨code, zero⟩
          rw [rep.size_eq_zero] at left
          push Not at left
          obtain ⟨vpid, process⟩ := left
          exact ⟨vpid, fun gone => process
            ((congrFun (update_job s.live key none) vpid).symm.trans gone)⟩
        · have none_live : s.live key = none := by simpa using present
          have same : update s.live key none = s.live := by
            rw [← none_live, update_eq_self]
          rw [same]
          exact filled key.1 found
      · exact others other found same

/-- Emptying a table without jobs changes nothing. -/
theorem Inv.removeAll (inv : Inv s) (noJob : s.pt.super.size = 0) :
    s.pt.removeAll = some (.error, s.pt) ∧ s.live = fun _ => none := by
  obtain ⟨jobs, owns, -⟩ := inv
  have none_job := owns.rep.size_eq_zero.mp noJob
  refine ⟨?_, funext fun key => owns.absent key.1 (none_job key.1) key.2⟩
  have first := HashTable.getNextKey_spec owns.rep.length none (Nat.zero_le _)
  unfold ProcTable.removeAll ProcTable.releaseFrom
  cases found : s.pt.super.getNextKey none with
  | none => rfl
  | some visit =>
    rw [found] at first
    have job := owns.rep.of_held first.1
    rw [none_job] at job
    cases job

section Traversal

/-- A process of a job, by its full name. -/
def named (jobid : UInt32) (pair : UInt32 × V) : ProcessName × V := ((jobid, pair.1), pair.2)

/-- The processes of a job in the table of jobs. -/
def processesOf (pt : ProcTable V) (job : UInt32 × Nat) : List (ProcessName × V) :=
  match pt.heap job.2 with
  | none => []
  | some vpids => (vpids.table.filterMap id).map (named job.1)

/-- The processes of the jobs from a slot of the table of jobs on. -/
def processesFrom (pt : ProcTable V) (start : Nat) : List (ProcessName × V) :=
  ((pt.super.table.drop start).filterMap id).flatMap (processesOf pt)

/-- A traversal stands at a slot of the table of a job. -/
structure StandsAt (pt : ProcTable V) (node inner : Nat) (jobid : UInt32) (ref : Nat)
    (vpids : HashTable UInt32 V) : Prop where
  job : pt.super.slot node = some (jobid, ref)
  node_lt : node < pt.super.capacity
  table : pt.heap ref = some vpids
  length : vpids.table.length = vpids.capacity
  inner_lt : inner < vpids.capacity

/-- The processes behind the one a traversal stands at. -/
def behind (pt : ProcTable V) (node inner : Nat) (jobid : UInt32) (vpids : HashTable UInt32 V) :
    List (ProcessName × V) :=
  ((vpids.table.drop (inner + 1)).filterMap id).map (named jobid) ++ processesFrom pt (node + 1)

section

variable (owns : Owns s jobs) (filled : Filled jobs s.live)

include owns filled

/-- The first process of the next job is the first of the processes left. -/
theorem Owns.firstOf (node : Option Nat) (inside : HashTable.startOf node ≤ s.pt.super.capacity) :
    s.pt.firstOf (s.pt.super.getNextKey node) = some none
        ∧ processesFrom s.pt (HashTable.startOf node) = []
      ∨ ∃ pair node' inner jobid ref vpids,
        s.pt.firstOf (s.pt.super.getNextKey node) = some (some (pair, node', inner))
          ∧ StandsAt s.pt node' inner jobid ref vpids
          ∧ processesFrom s.pt (HashTable.startOf node)
            = pair :: behind s.pt node' inner jobid vpids := by
  have next := HashTable.getNextKey_spec owns.rep.length node inside
  unfold processesFrom
  -- Either no job is left, or the next one starts with its first process.
  cases found : s.pt.super.getNextKey node with
  | none =>
    rw [found] at next
    refine .inl ⟨rfl, ?_⟩
    rw [next]
    rfl
  | some visit =>
    obtain ⟨⟨jobid, ref⟩, node'⟩ := visit
    rw [found] at next
    obtain ⟨held, below, rest⟩ := next
    have job := owns.rep.of_held held
    obtain ⟨vpids, allocated, holds⟩ := owns.tables jobid ref job
    -- The job has a process, so its table has a first one.
    have first := HashTable.getNextKey_spec holds.rep.length none (Nat.zero_le _)
    cases start : vpids.getNextKey none with
    | none =>
      rw [start] at first
      have empty : vpids.size = 0 :=
        holds.rep.size_eq_length.trans (congrArg List.length first)
      obtain ⟨vpid, process⟩ := filled jobid (by rw [job]; exact some_ne_none _)
      exact absurd (holds.rep.size_eq_zero.mp empty vpid) process
    | some visit =>
      obtain ⟨pair, inner⟩ := visit
      rw [start] at first
      obtain ⟨-, innerBelow, innerRest⟩ := first
      refine .inr ⟨named jobid pair, node', inner, jobid, ref, vpids, ?_,
        ⟨held, below, allocated, holds.rep.length, innerBelow⟩, ?_⟩
      · simp only [ProcTable.firstOf, allocated, bind_eq_bind, bind_some,
          HashTable.getFirstKey, start]
        rfl
      · have all : vpids.table.filterMap id
            = pair :: (vpids.table.drop (inner + 1)).filterMap id := innerRest
        rw [rest, flatMap_cons, processesOf, allocated]
        simp only [all]
        rfl

/-- A traversal with enough turns visits the processes behind the one it stands at. -/
theorem Owns.traverseFrom (turns : Nat) {node inner : Nat} {jobid : UInt32} {ref : Nat}
    {vpids : HashTable UInt32 V} (stands : StandsAt s.pt node inner jobid ref vpids)
    (enough : (behind s.pt node inner jobid vpids).length ≤ turns) :
    s.pt.traverseFrom turns node inner = some (behind s.pt node inner jobid vpids) := by
  -- By induction on the processes left; the table of a job ends before the next job starts.
  induction turns generalizing node inner jobid ref vpids with
  | zero =>
    rw [eq_nil_of_length_eq_zero (Nat.le_zero.mp enough)]
    rfl
  | succ turns ih =>
    have next := HashTable.getNextKey_spec stands.length (some inner)
      (show inner + 1 ≤ vpids.capacity from stands.inner_lt)
    unfold ProcTable.traverseFrom ProcTable.getNextKey
    simp only [stands.job, stands.table, bind_eq_bind, bind_some]
    cases found : vpids.getNextKey (some inner) with
    | some visit =>
      obtain ⟨pair, inner'⟩ := visit
      rw [found] at next
      obtain ⟨-, below, rest⟩ := next
      have here : behind s.pt node inner jobid vpids
          = named jobid pair :: behind s.pt node inner' jobid vpids := by
        unfold behind
        rw [show (vpids.table.drop (inner + 1)).filterMap id = _ from rest]
        rfl
      rw [here] at enough
      have here' : StandsAt s.pt node inner' jobid ref vpids := { stands with inner_lt := below }
      have onward := ih here' (Nat.le_of_succ_le_succ enough)
      rw [here]
      simp only [Option.pure_def, bind_some, onward]
      rfl
    | none =>
      rw [found] at next
      have here : behind s.pt node inner jobid vpids = processesFrom s.pt (node + 1) := by
        unfold behind
        rw [show (vpids.table.drop (inner + 1)).filterMap id = [] from next]
        rfl
      -- The job is done: the traversal goes on with the next one.
      rw [here] at enough ⊢
      rcases owns.firstOf filled (some node) stands.node_lt with ⟨ends, empty⟩ |
          ⟨pair, node', inner', jobid', ref', vpids', first, standsNext, rest⟩
      · simp only [ends]
        exact congrArg some empty.symm
      · change processesFrom s.pt (node + 1) = _ at rest
        rw [rest] at enough
        simp only [first, bind_some, ih standsNext (Nat.le_of_succ_le_succ enough)]
        exact congrArg some rest.symm

/-- A traversal with enough turns visits all processes. -/
theorem Owns.traverse (turns : Nat) (enough : (processesFrom s.pt 0).length ≤ turns) :
    s.pt.traverse turns = some (processesFrom s.pt 0) := by
  cases turns with
  | zero =>
    rw [eq_nil_of_length_eq_zero (Nat.le_zero.mp enough)]
    rfl
  | succ turns =>
    unfold ProcTable.traverse ProcTable.getFirstKey HashTable.getFirstKey
    rcases owns.firstOf filled none (Nat.zero_le _) with ⟨ends, empty⟩ |
        ⟨pair, node', inner', jobid', ref', vpids', first, standsNext, rest⟩
    · simp only [ends]
      exact congrArg some empty.symm
    · change processesFrom s.pt 0 = _ at rest
      rw [rest] at enough
      simp only [first, bind_eq_bind, bind_some,
        owns.traverseFrom filled turns standsNext (Nat.le_of_succ_le_succ enough)]
      exact congrArg some rest.symm

end

/-- The processes a traversal visits are those of the map. -/
theorem Owns.mem_processes (owns : Owns s jobs) (key : ProcessName) (value : V) :
    (key, value) ∈ processesFrom s.pt 0 ↔ s.live key = some value := by
  unfold processesFrom
  rw [mem_flatMap]
  constructor
  · -- A listed process is stored in the table of its job, and the other way round.
    rintro ⟨⟨jobid, ref⟩, listed, process⟩
    obtain ⟨i, held⟩ := Slots.mem_filterMap.mp listed
    obtain ⟨vpids, allocated, holds⟩ := owns.tables jobid ref (owns.rep.of_held held)
    unfold processesOf at process
    rw [allocated] at process
    obtain ⟨pair, inside, rfl, rfl⟩ : ∃ pair ∈ vpids.table.filterMap id,
        (jobid, pair.1) = key ∧ pair.2 = value := by
      obtain ⟨pair, inside, same⟩ := mem_map.mp process
      exact ⟨pair, inside, congrArg Prod.fst same, congrArg Prod.snd same⟩
    exact (holds.rep.pairs pair.1 pair.2).mpr (Slots.mem_filterMap.mp inside)
  · intro live
    cases job : jobs key.1 with
    | none => rw [show s.live key = none from owns.absent key.1 job key.2] at live; cases live
    | some ref =>
      obtain ⟨vpids, allocated, holds⟩ := owns.tables key.1 ref job
      refine ⟨(key.1, ref), Slots.mem_filterMap.mpr ((owns.rep.pairs key.1 ref).mp job), ?_⟩
      unfold processesOf
      rw [allocated]
      exact mem_map.mpr ⟨(key.2, value),
        Slots.mem_filterMap.mpr ((holds.rep.pairs key.2 value).mp live), rfl⟩

/-- A traversal visits no process twice. -/
theorem Owns.nodup_processes (owns : Owns s jobs) :
    ((processesFrom s.pt 0).map Prod.fst).Nodup := by
  unfold processesFrom
  rw [map_flatMap, nodup_flatMap]
  constructor
  · intro job listed
    obtain ⟨i, held⟩ := Slots.mem_filterMap.mp listed
    obtain ⟨vpids, allocated, holds⟩ := owns.tables job.1 job.2 (owns.rep.of_held held)
    unfold processesOf
    rw [allocated]
    have names := holds.rep.nodup_keys.map (Prod.mk_right_injective job.1)
    rwa [List.map_map] at names ⊢
  · -- Processes of different jobs have different names.
    refine (pairwise_map.mp owns.rep.nodup_keys).imp fun {a b} different key inA inB => different ?_
    have job_of : ∀ job : UInt32 × Nat, key ∈ (processesOf s.pt job).map Prod.fst →
        key.1 = job.1 := by
      intro job inside
      unfold processesOf at inside
      cases table : s.pt.heap job.2 with
      | none => rw [table] at inside; cases inside
      | some vpids =>
        rw [table] at inside
        simp only [List.map_map, List.mem_map] at inside
        obtain ⟨pair, -, rfl⟩ := inside
        rfl
    exact (job_of a inA).symm.trans (job_of b inB)

end Traversal

/-- A store whose allocations succeed succeeds. -/
theorem Inv.setValue_of_fits (inv : Inv s) {value : V} (fits : s.Fits (.setValue key value)) :
    ∃ pt, s.pt.setValue key value = some (.success, pt)
      ∧ Inv ⟨pt, update s.live key (some value)⟩ := by
  obtain ⟨rc, pt, sets, rfl | rfl, kept⟩ := inv.setValue key value
  · exact ⟨pt, sets, kept rfl⟩
  · exact absurd (congrArg (Option.map Prod.fst) sets) fits

/-- The table answers as the map does. -/
structure Refines (s : ProcState V) : Prop where
  gets : ∀ key, s.pt.getValue key = some (match s.live key with
    | some value => (.success, some value)
    | none => (.errNotFound, none))
  /-- The tables of the jobs are allocated, and none of them is empty. -/
  tables : ∀ i jobid ref, s.pt.super.slot i = some (jobid, ref) →
    ∃ vpids, s.pt.heap ref = some vpids ∧ vpids.size ≠ 0
  sets : ∀ key value, s.Fits (.setValue key value) →
    ∃ after, s.pt.setValue key value = some (.success, after)
  removes : ∀ key, ∃ after, s.pt.removeValue key
    = some (if (s.live key).isSome then .success else .errNotFound, after)
  empties : s.Fits .removeAll → ∃ rc after, s.pt.removeAll = some (rc, after)
    ∧ ∀ key, after.getValue key = some (.errNotFound, none)
  /-- A traversal visits every process of the map once. -/
  visits : ∃ visited : List (ProcessName × V),
    (∀ turns, visited.length ≤ turns → s.pt.traverse turns = some visited)
      ∧ (visited.map Prod.fst).Nodup ∧ ∀ key value, (key, value) ∈ visited ↔ s.live key = some value

/-- A table that holds the map answers as the map does. -/
theorem Inv.refines (inv : Inv s) : Refines s where
  gets := by
    obtain ⟨jobs, owns, -⟩ := inv
    exact owns.getValue
  tables i jobid ref held := by
    obtain ⟨jobs, owns, filled⟩ := inv
    have job := owns.rep.of_held held
    obtain ⟨vpids, allocated, holds⟩ := owns.tables jobid ref job
    obtain ⟨vpid, process⟩ := filled jobid (by rw [job]; exact some_ne_none _)
    exact ⟨vpids, allocated, fun empty => process (holds.rep.size_eq_zero.mp empty vpid)⟩
  sets key value fits := by
    obtain ⟨after, sets, -⟩ := inv.setValue_of_fits fits
    exact ⟨after, sets⟩
  removes key := by
    obtain ⟨after, removes, -⟩ := inv.removeValue key
    exact ⟨after, removes⟩
  empties noJob := by
    obtain ⟨returns, empty⟩ := inv.removeAll noJob
    obtain ⟨jobs, owns, -⟩ := inv
    refine ⟨_, _, returns, fun key => ?_⟩
    rw [owns.getValue, empty]
  visits := by
    obtain ⟨jobs, owns, filled⟩ := inv
    exact ⟨_, owns.traverse filled, owns.nodup_processes, owns.mem_processes⟩

/-- Every call that fits returns, and the table behind it holds the map behind it. -/
theorem Inv.step (inv : Inv s) {action : ProcAction V} (fits : s.Fits action) :
    ∃ after, s.step action = some after ∧ Inv after := by
  cases action with
  | setValue key value =>
    obtain ⟨pt, sets, kept⟩ := inv.setValue_of_fits fits
    exact ⟨_, by simp only [ProcState.step, sets]; rfl, kept⟩
  | removeValue key =>
    obtain ⟨pt, removes, kept⟩ := inv.removeValue key
    exact ⟨_, by simp only [ProcState.step, removes]; rfl, kept⟩
  | removeAll =>
    obtain ⟨returns, empty⟩ := inv.removeAll fits
    refine ⟨_, by simp only [ProcState.step, returns]; rfl, ?_⟩
    rw [← empty]
    exact inv

/-- A table without jobs holds the empty map. -/
theorem Inv.init {jobids vpids : Nat} {pt : ProcTable V}
    (starts : ProcTable.init jobids vpids = some (.success, pt)) : Inv ⟨pt, fun _ => none⟩ := by
  obtain ⟨rc, super, returns, -, fresh⟩ := HashTable.init_spec (V := Nat) UInt32.toNat jobids
  unfold ProcTable.init at starts
  rw [returns] at starts
  obtain ⟨rfl, rfl⟩ := Prod.mk.inj (some.inj starts)
  obtain ⟨rep, standard⟩ := fresh rfl
  refine ⟨fun _ => none, ⟨rep, standard, nofun, nofun, nofun, fun _ _ _ => rfl⟩, ?_⟩
  exact fun jobid job => absurd rfl job

/-- As long as a table is emptied at once only when it has no job, and allocations succeed, it
answers as a map does in every run of calls. -/
theorem process_table_refines_map (V : Type) (jobids vpids : Nat) (pt : ProcTable V)
    (starts : ProcTable.init jobids vpids = some (.success, pt)) (actions : List (ProcAction V))
    (fits : Machine.Along step Fits ⟨pt, fun _ => none⟩ actions) :
    ∃ after, Machine.exec step ⟨pt, fun _ => none⟩ actions = some after ∧ Refines after := by
  obtain ⟨after, ran, inv⟩ :=
    Machine.exec_total_along (P := Inv) (fun _ _ inv fits => inv.step fits) (Inv.init starts) fits
  exact ⟨after, ran, inv.refines⟩

/-- A job whose last process goes, and a job that stays. -/
theorem two_jobs_refine_map :
    ∃ pt, ProcTable.init 8 8 = some (.success, pt) ∧
      ∃ after, Machine.exec step ⟨pt, fun _ => none⟩
          [.removeAll, .setValue (1, 2) 7, .setValue (3, 4) 8, .removeValue (1, 2)] = some after
        ∧ Refines after :=
  ⟨_, rfl, process_table_refines_map Nat 8 8 _ rfl _ (by decide +kernel)⟩

/-- A table emptied at once returns an error, keeps the released table of its job, and a lookup
of the job then uses that table. -/
theorem released_table_stays_in_use : ((ProcTable.init 8 8).bind fun start =>
        (start.2.setValue (1, 2) 'a').bind fun stored => stored.2.removeAll.map fun emptied =>
          (emptied.1, emptied.2.super.size, emptied.2.getValue (1, 2)))
      = some (.error, 1, none) := by
  decide +kernel

end ProcState

end EduMpi.Opal
