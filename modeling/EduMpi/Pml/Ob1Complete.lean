import EduMpi.Pml.Ob1Recv
import EduMpi.Trace.CopyRow
import Mathlib.Data.List.Basic

/-! What the completions of the requests of one entry leave in it: its size and its time stamps. -/

namespace EduMpi.Ob1

open List

/-- Requests completed one after the other, each at its own time. -/
def completeAll (calls : List (Nat × Timespec)) (s : State) : State :=
  calls.foldl (fun s call => recvRequestPmlComplete call.1 call.2 s) s

/-- Several requests that carry one entry, and none of them is complete. -/
structure Carried (s : State) (e : Nat) (calls : List (Nat × Timespec)) : Prop where
  distinct : (calls.map Prod.fst).Nodup
  incomplete : ∀ call ∈ calls, (s.requests call.1).reqPmlComplete = false
  carrying : ∀ call ∈ calls, (s.requests call.1).q = some e

section Completion

variable {s : State} {e r : Nat} {calls : List (Nat × Timespec)}

theorem complete_entry (incomplete : (s.requests r).reqPmlComplete = false)
    (carrying : (s.requests r).q = some e) (now : Timespec) :
    (recvRequestPmlComplete r now s).entries e = completeItem (s.requests r) now (s.entries e) := by
  simp only [recvRequestPmlComplete, incomplete, carrying, State.store, Bool.false_eq_true, if_false]
  split <;> simp [recvRequestReturn, State.setRequest]

theorem complete_requests_of_ne {other : Nat} (differ : other ≠ r) (now : Timespec) :
    (recvRequestPmlComplete r now s).requests other = s.requests other := by
  unfold recvRequestPmlComplete
  dsimp only
  repeat' split
  all_goals simp [recvRequestReturn, State.setRequest, differ]

/-- Each request makes its own stores into the entry, whatever was completed before it. -/
theorem completeAll_entry (carried : Carried s e calls) :
    (completeAll calls s).entries e
      = calls.foldl (fun item call => completeItem (s.requests call.1) call.2 item)
          (s.entries e) := by
  induction calls generalizing s with
  | nil => rfl
  | cons call rest ih =>
    obtain ⟨distinct, incomplete, carrying⟩ := carried
    rw [map_cons, nodup_cons] at distinct
    -- The requests of the later calls are not touched by this one.
    have same : ∀ later ∈ rest,
        (recvRequestPmlComplete call.1 call.2 s).requests later.1 = s.requests later.1 := by
      intro later within
      apply complete_requests_of_ne
      intro equal
      exact distinct.1 (equal ▸ mem_map_of_mem within)
    have onward : Carried (recvRequestPmlComplete call.1 call.2 s) e rest :=
      { distinct := distinct.2
        incomplete := fun later within => by
          rw [same later within]
          exact incomplete later (mem_cons_of_mem _ within)
        carrying := fun later within => by
          rw [same later within]
          exact carrying later (mem_cons_of_mem _ within) }
    rw [completeAll, foldl_cons, foldl_cons, ← completeAll, ih onward,
      complete_entry (incomplete call mem_cons_self) (carrying call mem_cons_self)]
    apply foldl_ext
    intro item later within
    rw [same later within]

/-! The received size. -/

/-- The bytes of a request that its completion does not add to the size: the cast to a signed
32-bit number drops whole multiples of its range, and a message without packed bytes is skipped. -/
def lost (req : RecvRequest) : Nat :=
  if 0 < req.reqBytesPacked then (req.reqBytesReceived + 2 ^ 31) / 2 ^ 32 * 2 ^ 32
  else req.reqBytesReceived

theorem completeItem_recvDatasize (req : RecvRequest) (now : Timespec) (item : QEntry) :
    (completeItem req now item).recvDatasize.toInt
      = Int.bmod (item.recvDatasize.toInt + req.reqBytesReceived - lost req) (2 ^ 64) := by
  have range := item.recvDatasize.toInt_lt
  have range' := item.recvDatasize.le_toInt
  have cast : (Int32.ofNat req.reqBytesReceived).toInt
      = Int.bmod req.reqBytesReceived (2 ^ 32) := by simp
  by_cases data : 0 < req.reqBytesPacked
  · have size : (completeItem req now item).recvDatasize
        = item.recvDatasize + (Int32.ofNat req.reqBytesReceived).toInt64 := by
      simp only [completeItem, if_pos data]
      split <;> rfl
    rw [size, Int64.toInt_add, Int32.toInt_toInt64, cast, lost, if_pos data]
    simp only [Int.bmod]
    omega
  · have size : (completeItem req now item).recvDatasize = item.recvDatasize := by
      simp only [completeItem, if_neg data]
      split <;> rfl
    rw [size, lost, if_neg data]
    simp only [Int.bmod]
    omega

theorem foldl_recvDatasize (reqs : Nat → RecvRequest) (item : QEntry) :
    (calls.foldl (fun item call => completeItem (reqs call.1) call.2 item) item).recvDatasize.toInt
      = Int.bmod (item.recvDatasize.toInt
          + (calls.map fun call => ((reqs call.1).reqBytesReceived : Int)).sum
          - (calls.map fun call => (lost (reqs call.1) : Int)).sum) (2 ^ 64) := by
  induction calls generalizing item with
  | nil =>
    have range := item.recvDatasize.toInt_lt
    have range' := item.recvDatasize.le_toInt
    simp only [foldl_nil, map_nil, sum_nil, Int.bmod]
    omega
  | cons call rest ih =>
    rw [foldl_cons, ih, completeItem_recvDatasize, map_cons, map_cons, sum_cons, sum_cons]
    simp only [Int.bmod]
    omega

/-- The completions add up, in whatever order they come, exactly when what they lose is a multiple
of the range of the field and the sum is inside it. -/
theorem received_bytes_add_up_iff (carried : Carried s e calls) :
    ((completeAll calls s).entries e).recvDatasize.toInt
        = (s.entries e).recvDatasize.toInt
          + (calls.map fun call => ((s.requests call.1).reqBytesReceived : Int)).sum
      ↔ 2 ^ 64 ∣ (calls.map fun call => (lost (s.requests call.1) : Int)).sum
        ∧ InInt64 ((s.entries e).recvDatasize.toInt
          + (calls.map fun call => ((s.requests call.1).reqBytesReceived : Int)).sum) := by
  rw [completeAll_entry carried, foldl_recvDatasize]
  simp only [Int.bmod, InInt64]
  omega

/-- Two messages of one mebibyte. -/
theorem received_bytes_add_up_mebibytes :
    let req := { recvRequestConstruct with
      q := some 0, reqBytesPacked := 2 ^ 20, reqBytesReceived := 2 ^ 20 }
    let s := { initial fun _ => QEntry.zero with requests := fun _ => req }
    ((completeAll [(1, ⟨5, 0⟩), (0, ⟨6, 0⟩)] s).entries 0).recvDatasize.toInt = 0 + (2 ^ 20 + 2 ^ 20) :=
  (received_bytes_add_up_iff ⟨by decide, by decide, by decide⟩).mpr ⟨by decide, by decide⟩

/-- A message of two gibibytes is subtracted instead of added. -/
theorem received_bytes_subtracted :
    let req := { recvRequestConstruct with
      q := some 0, reqBytesPacked := 2 ^ 31, reqBytesReceived := 2 ^ 31 }
    let s := { initial fun _ => QEntry.zero with requests := fun _ => req }
    ((completeAll [(0, ⟨5, 0⟩)] s).entries 0).recvDatasize.toInt = -2 ^ 31 := by
  decide +kernel

/-! The time stamps. -/

/-- The last store of a wrapper: the time of its return. -/
def wrapperReturns (stop : Timespec) (item : QEntry) : QEntry :=
  { item with endTime := stop }

/-- The start of an entry is the time of the last completion. -/
theorem foldl_startTime (reqs : Nat → RecvRequest) (item : QEntry) :
    (calls.foldl (fun item call => completeItem (reqs call.1) call.2 item) item).startTime
      = (calls.getLast?.map Prod.snd).getD item.startTime := by
  rcases eq_nil_or_concat calls with none | ⟨before, last, rfl⟩
  · rw [none]
    rfl
  · rw [concat_eq_append, foldl_append, getLast?_concat]
    rfl

/-- A call keeps its start stamp, and its duration is the one encoded, exactly when no receive of
its entry completes or the last one completes at that very stamp. -/
theorem blocking_start_kept_iff (carried : Carried s e calls) (stop : Timespec)
    (_blocking : (s.entries e).pendingRequest = 0) :
    let start := (s.entries e).startTime
    let encoded := wrapperReturns stop ((completeAll calls s).entries e)
    (encoded.startTime = start ∧ encoded.endTime = stop
        ∧ timespecDiff encoded.startTime encoded.endTime = timespecDiff start stop)
      ↔ ∀ call ∈ calls.getLast?, call.2 = start := by
  intro start encoded
  have stamped : encoded.startTime = (calls.getLast?.map Prod.snd).getD start := by
    change ((completeAll calls s).entries e).startTime = _
    rw [completeAll_entry carried, foldl_startTime]
  have ended : encoded.endTime = stop := rfl
  rw [stamped, ended]
  cases calls.getLast? <;> simp +contextual

/-- A collective whose two receives both complete in the second of its start. -/
theorem blocking_start_kept_at_once :
    let req := { recvRequestConstruct with
      q := some 0, reqBytesPacked := 1, reqBytesReceived := 1, blocking := true }
    let s := { initial fun _ => { QEntry.zero with startTime := ⟨5, 0⟩ } with
      requests := fun _ => req }
    let encoded := wrapperReturns ⟨7, 0⟩ ((completeAll [(1, ⟨5, 0⟩), (0, ⟨5, 0⟩)] s).entries 0)
    encoded.startTime = ⟨5, 0⟩ ∧ encoded.endTime = ⟨7, 0⟩
      ∧ timespecDiff encoded.startTime encoded.endTime = timespecDiff ⟨5, 0⟩ ⟨7, 0⟩ :=
  (blocking_start_kept_iff ⟨by decide, by decide, by decide⟩ ⟨7, 0⟩ rfl).mpr (by decide)

/-- A blocking receive that waited from the fifth to the seventh second starts at the sixth. -/
theorem blocking_start_moved :
    let req := { recvRequestConstruct with
      q := some 0, reqBytesPacked := 1, reqBytesReceived := 1, blocking := true }
    let s := { initial fun _ => { QEntry.zero with startTime := ⟨5, 0⟩ } with
      requests := fun _ => req }
    let encoded := wrapperReturns ⟨7, 0⟩ ((completeAll [(0, ⟨6, 0⟩)] s).entries 0)
    encoded.pendingRequest = 0 ∧ encoded.startTime = ⟨6, 0⟩ ∧ encoded.endTime = ⟨7, 0⟩ := by
  decide +kernel

end Completion

end EduMpi.Ob1
