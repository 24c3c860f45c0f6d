import EduMpi.Pml.UcxRecvLaws
import EduMpi.Trace.AmtWriters

/-! The calls of the UCX PML, seen as claimants of the ring that store into what they hold. -/

namespace EduMpi.Ucx

open Machine
open AmtRing (OwnStores OnlyOwner edumpiAmtRingClaim)
open List (replicate)

variable {C T : Type} [DecidableEq C] [DecidableEq T]

/-- The ring gets from one state to the other by accesses of claimants to entries they hold. -/
def RingRuns (cfg : Config C T) (s t : State C T) : Prop :=
  ∃ bs, exec (AmtRing.step cfg.ring cfg.threadOf) s.ring bs = some t.ring
    ∧ Along (AmtRing.step cfg.ring cfg.threadOf) (OwnStores cfg.ring cfg.threadOf) s.ring bs

section Steps

variable {cfg : Config C T} {s t : State C T}

theorem RingRuns.of_eq (ring : t.ring = s.ring) : RingRuns cfg s t :=
  ⟨[], by rw [exec_nil, ring], trivial⟩

theorem RingRuns.of_step {b : AmtRing.Action (Claimant C) T}
    (taken : AmtRing.step cfg.ring cfg.threadOf s.ring b = some t.ring)
    (own : OwnStores cfg.ring cfg.threadOf s.ring b) : RingRuns cfg s t :=
  ⟨[b], by rw [exec_cons, taken]; rfl, own, by rw [taken]; trivial⟩

/-- Claimants store only into what they hold. -/
theorem RingRuns.of_access (access : Access cfg s t.ring) : RingRuns cfg s t := by
  generalize same : t.ring = ring at access
  cases access with
  | none => exact .of_eq same
  | @store k holds change =>
    exact .of_step (b := .store k (s.item cfg k) change) (congrArg some same.symm) ⟨rfl, holds⟩
  | @word k holds word =>
    exact .of_step (b := .storeLifecycle k (s.item cfg k) word) (congrArg some same.symm)
      ⟨rfl, holds⟩
  | @claim k _ taken => exact .of_step (b := .claim k) (taken.trans (congrArg some same.symm)) trivial

/-- Every step of the calls is an access to the ring that stores only into what is held. -/
theorem Inv.ring_step (inv : Inv cfg s) {a : Action C} (taken : step cfg s a = some t) :
    RingRuns cfg s t := by
  cases a with
  | call c now => exact .of_access (inv.stepCall taken).access
  | callback c => exact .of_access (inv.recvFinished taken).access
  | complete c now => exact .of_access (inv.completeEntry taken).access
  | drainCall force max =>
    obtain ⟨ring, moved, rfl⟩ := Option.map_eq_some_iff.mp taken
    exact .of_step (b := .drainCall force max) moved trivial
  | drain clock =>
    obtain ⟨ring, moved, rfl⟩ := Option.map_eq_some_iff.mp taken
    exact .of_step (b := .drain clock) moved trivial

end Steps

/--
An entry that is handed over was written by the call that claimed it, and by its completion.

This holds in every run in which the consumer gives no slot back before its claimant is done with it; in such a run no call ever stores into a slot that was claimed for another event.
-/
theorem entry_has_one_writer (cfg : Config C T) (actions : List (Action C)) (s : State C T)
    (ran : exec (step cfg) initial actions = some s)
    (inTime : Along (step cfg) (InTime cfg) initial actions) :
    (∀ r ∈ s.ring.left, r.emitted = true → ∀ w ∈ r.writers, r.owner = some w)
    ∧ ∀ k h, (s.ring.claims k).ticket = some h → s.ring.left.length ≤ h →
        s.ring.claims k ≠ .resetBody h → ∀ w ∈ s.ring.writers (h % cfg.ring.size), w = k := by
  -- The invariant of the calls lets every step be read as a step of the ring.
  have holds : Inv cfg s ∧ OnlyOwner cfg.ring s.ring := by
    refine exec_keeps_along (P := fun s => Inv cfg s ∧ OnlyOwner cfg.ring s.ring) ?_
      ⟨inv_initial, ?_⟩ inTime ran
    · intro s a t before inTime taken
      obtain ⟨bs, moves, own⟩ := before.1.ring_step taken
      have after := exec_keeps_along AmtRing.onlyOwner_step ⟨before.1.ring.inv, before.2⟩ own moves
      exact ⟨inv_step s a t before.1 inTime taken, after.2⟩
    · exact ⟨by simp [initial, AmtRing.initial], by simp [initial, AmtRing.initial]⟩
  exact ⟨fun r among _ => holds.2.left r among, holds.2.slots⟩

/-- Two receives on a ring of one slot. -/
def oneSlot : Config Bool Bool where
  ring := ⟨1, 10, 10, Nat.one_pos⟩
  process := ⟨0, [], 1⟩
  call := fun _ => .irecv ⟨1, 1, .int, .world, .posted⟩
  status := fun _ => ⟨false, 4, 1⟩
  thread := id
  finisher := id

/-- A receive returns, its message arrives, and the consumer finds the entry complete. -/
def receiveRun (c : Bool) : List (Action Bool) :=
  replicate 18 (.call c ⟨1, 1⟩) ++ replicate 4 (.callback c)
    ++ replicate 7 (.complete c ⟨2, 2⟩) ++ .drainCall false 5 :: replicate 9 (.drain 0)

/-- The slot is claimed again once the first entry is handed over. -/
theorem entry_has_one_writer_receives :
    ∃ s, exec (step oneSlot) initial (receiveRun false ++ receiveRun true) = some s
      ∧ (s.ring.left.map (fun r => (r.owner, r.emitted, r.writers.length))
        = [(some (.call false), true, 13), (some (.call true), true, 13)])
      ∧ ∀ r ∈ s.ring.left, r.emitted = true → ∀ w ∈ r.writers, r.owner = some w := by
  refine reaches_of_decide
    (P := fun s => s.ring.left.map (fun r => (r.owner, r.emitted, r.writers.length))
      = [(some (.call false), true, 13), (some (.call true), true, 13)]) (by decide +kernel)
    fun s ran handed => ⟨handed, ?_⟩
  exact (entry_has_one_writer oneSlot _ s ran (by decide +kernel)).1

/-- Two blocking calls on a ring of one slot, each filling its entry and stamping it at the end. -/
def twoCalls : Config Bool Bool where
  ring := ⟨1, 10, 10, Nat.one_pos⟩
  process := ⟨0, [], 1⟩
  call := fun _ => .other [({ · with startTime := ⟨1, 1⟩ }), ({ · with endTime := ⟨2, 2⟩ })]
  status := fun _ => ⟨false, 0, 0⟩
  thread := id
  finisher := id

/--
The first call blocks for longer than the stall timeout, so its entry is handed over as it is.

Then the second call claims the slot, and the first call stamps its end into it.
-/
theorem entry_has_two_writers :
    ∃ actions s, exec (step twoCalls) initial actions = some s
      ∧ ∃ r ∈ s.ring.left, r.emitted = true ∧ r.owner = some (.call true)
        ∧ .call false ∈ r.writers :=
  ⟨replicate 9 (.call false ⟨0, 0⟩)
    ++ .drainCall false 5 :: replicate 5 (.drain 0)
    ++ .drainCall false 5 :: replicate 9 (.drain 20)
    ++ replicate 9 (.call true ⟨0, 0⟩) ++ [.call false ⟨0, 0⟩]
    ++ .drainCall false 5 :: replicate 8 (.drain 30), _, rfl, by decide⟩

end EduMpi.Ucx
