import EduMpi.Lib.Run
import EduMpi.Trace.Entry
import Mathlib.Logic.Function.Basic

/-! The ring for many producers and one consumer, one memory access at a time.

Tickets and dropped events are counted by natural numbers. The counters of the program and its lifecycle words have 64 bits, which is enough for runs of fewer than two to the sixty-second accesses. -/

namespace EduMpi.AmtRing

open Function (update)

/-- The fixed parameters of a ring. -/
structure Config where
  size : Nat
  stallNs : Int
  requestWaitNs : Int
  sizePos : 0 < size

/-- Whether a slot is the consumer's to look at. -/
inductive SlotState where
  | free | active
deriving DecidableEq, Repr

/-- Where a call of the claim function stands. -/
inductive ClaimPc where
  | unborn
  | loadTail (h : Nat)
  | compareExchange (h : Nat)
  /-- The ring was full: the event is about to be counted as dropped. -/
  | drop
  | zeroScratch
  | resetBody (h : Nat)
  | resetLifecycle (h : Nat)
  | activate (h : Nat)
  /-- Returned with the slot of a ticket. -/
  | slot (h : Nat)
  /-- Returned with the scratch entry of the thread. -/
  | scratch
deriving DecidableEq, Repr

/-- Where the consumer stands in its loop. -/
inductive DrainPc where
  | idle
  | top
  | loadState
  | endSec
  | endNsec
  | pending
  | done
  | age
  | ageSec (now : Int)
  | ageNsec (now sec : Int)
  | finishing
  | abandonLoad
  | abandonExchange (lc : Nat)
  | stall
  | emit
  | free
  | advance
deriving DecidableEq, Repr

/-- The memory a producer may be given: a slot of the ring, or its thread's scratch entry. -/
inductive Pointer (T : Type) where
  | slot (idx : Nat)
  | scratch (thread : T)
deriving DecidableEq, Repr

/-- A ticket leaving the ring: what the consumer saw, and whether it handed it over. -/
structure Leaving (K : Type) where
  ticket : Nat
  owner : Option K
  writers : List K
  entry : QEntry
  emitted : Bool

/--
The ring, the calls on it, and what has left it.

The owners of the tickets, the writers of a slot since its reset and the list of what has left are not in the memory of the program.
-/
structure State (K T : Type) where
  head : Nat
  tail : Nat
  dropped : Nat
  states : Nat → SlotState
  slots : Nat → QEntry
  scratch : T → QEntry
  claims : K → ClaimPc
  drain : DrainPc
  force : Bool
  max : Int
  handed : Nat
  stalled : Bool
  stallSince : Int
  owner : Nat → Option K
  writers : Nat → List K
  left : List (Leaving K)

section Machine

variable {K T : Type}

/-- A ring nobody has called yet. -/
def initial (scratch : T → QEntry) : State K T where
  head := 0
  tail := 0
  dropped := 0
  states := fun _ => .free
  slots := fun _ => QEntry.zero
  scratch := scratch
  claims := fun _ => .unborn
  drain := .idle
  force := false
  max := 0
  handed := 0
  stalled := false
  stallSince := 0
  owner := fun _ => none
  writers := fun _ => []
  left := []

/-- The entry a pointer leads to. -/
def State.deref (s : State K T) : Pointer T → QEntry
  | .slot idx => s.slots idx
  | .scratch thread => s.scratch thread

/-- A writer joins the writers of a slot. -/
def State.sign (s : State K T) (w : K) (p : Pointer T) : State K T :=
  { s with
    writers := match p with
      | .slot idx => update s.writers idx (w :: s.writers idx)
      | .scratch _ => s.writers }

@[simps] def State.drainAt (s : State K T) (pc : DrainPc) : State K T :=
  { s with drain := pc }

/-- The slot of the oldest ticket. -/
def State.tailSlot (cfg : Config) (s : State K T) : Nat :=
  s.tail % cfg.size

/-- The entry of the oldest ticket. -/
def State.tailEntry (cfg : Config) (s : State K T) : QEntry :=
  s.slots (s.tailSlot cfg)

/-- The entry a call of the claim function returned. -/
def State.given (cfg : Config) (thread : K → T) (s : State K T) (k : K) : Pointer T :=
  match s.claims k with
  | .slot h => .slot (h % cfg.size)
  | _ => .scratch (thread k)

/-- The oldest ticket leaves with what its entry holds now. -/
def State.leave (cfg : Config) (s : State K T) (emitted : Bool) : State K T :=
  { s with
    left := s.left ++ [⟨s.tail, s.owner s.tail, s.writers (s.tailSlot cfg), s.tailEntry cfg,
      emitted⟩] }

@[simps] def State.claimAt [DecidableEq K] (s : State K T) (k : K) (pc : ClaimPc) : State K T :=
  { s with claims := update s.claims k pc }

variable [DecidableEq T]

/-- An entry is replaced by another. -/
def State.assign (s : State K T) (p : Pointer T) (entry : QEntry) : State K T :=
  { s with
    slots := match p with
      | .slot idx => update s.slots idx entry
      | .scratch _ => s.slots
    scratch := match p with
      | .slot _ => s.scratch
      | .scratch thread => update s.scratch thread entry }

/-- Plain stores into an entry; the lifecycle word is not among them. -/
def State.store (s : State K T) (w : K) (p : Pointer T) (change : QEntry → QEntry) : State K T :=
  (s.assign p ((change (s.deref p)).withLifecycle (s.deref p).lifecycle)).sign w p

/-- A store into the lifecycle word. -/
def State.storeLifecycle (s : State K T) (w : K) (p : Pointer T) (word : Nat) : State K T :=
  (s.assign p ((s.deref p).withLifecycle word)).sign w p

/-- One memory access of `edumpi_amt_ring_drain`; a step that reads a clock reads the given time. -/
def edumpiAmtRingDrain (cfg : Config) (clock : Int) (s : State K T) : Option (State K T) :=
  let e := s.tailEntry cfg
  match s.drain with
  | .idle => none
  | .top =>
    some (s.drainAt (if s.handed < s.max ∧ s.tail < s.head then .loadState else .idle))
  | .loadState =>
    some (s.drainAt (if s.states (s.tailSlot cfg) = .active then .endSec else .idle))
  | .endSec =>
    some (s.drainAt (if e.endTime.tvSec = 0 then .endNsec
      else if s.force then .emit else .pending))
  | .endNsec =>
    some (s.drainAt (if s.force then .emit
      else if e.endTime.tvNsec = 0 then .stall else .pending))
  | .pending => some (s.drainAt (if e.pendingRequest = 0 then .emit else .done))
  | .done => some (s.drainAt (if e.requestDone = 0 then .age else .emit))
  | .age => some (s.drainAt (.ageSec clock))
  | .ageSec now => some (s.drainAt (.ageNsec now (e.endTime.tvSec.toInt * 1000000000)))
  | .ageNsec now sec =>
    some (s.drainAt (if now - (sec + e.endTime.tvNsec.toInt) < cfg.requestWaitNs then .idle
      else .finishing))
  | .finishing =>
    some (s.drainAt (if lcState e.lifecycle = .finishing then .idle else .abandonLoad))
  | .abandonLoad =>
    -- What is not a pending UCX receive is handed over as it is.
    some (s.drainAt (if lcState e.lifecycle = .pending then .abandonExchange e.lifecycle
      else .emit))
  | .abandonExchange lc =>
    if e.lifecycle = lc then
      let word := edumpiLc (lcTicket lc) .abandoned
      some (((s.assign (.slot (s.tailSlot cfg)) (e.withLifecycle word)).leave cfg false).drainAt
        .free)
    else some (s.drainAt .emit)
  | .stall =>
    if s.stalled then
      some (s.drainAt (if clock - s.stallSince < cfg.stallNs then .idle else .emit))
    else some { s.drainAt .idle with stalled := true, stallSince := clock }
  | .emit => some ((s.leave cfg true).drainAt .free)
  | .free =>
    some { s.drainAt .advance with
      stalled := false
      states := update s.states (s.tailSlot cfg) .free }
  | .advance => some { s.drainAt .top with tail := s.tail + 1, handed := s.handed + 1 }

variable [DecidableEq K]

/-- One memory access of a call of `edumpi_amt_ring_claim` by a thread. -/
def edumpiAmtRingClaim (cfg : Config) (thread : K → T) (k : K) (s : State K T) :
    Option (State K T) :=
  match s.claims k with
  | .unborn => some (s.claimAt k (.loadTail s.head))
  | .loadTail h =>
    -- The head was read earlier, so the tail may be ahead of it by now.
    some (s.claimAt k (if s.tail + cfg.size ≤ h then .drop else .compareExchange h))
  | .compareExchange h =>
    if s.head = h then
      some { s.claimAt k (.resetBody h) with
        head := h + 1
        owner := update s.owner h (some k) }
    else some (s.claimAt k (.loadTail s.head))
  | .drop => some { s.claimAt k .zeroScratch with dropped := s.dropped + 1 }
  | .zeroScratch => some ((s.assign (.scratch (thread k)) QEntry.zero).claimAt k .scratch)
  | .resetBody h =>
    let idx := h % cfg.size
    some { (s.assign (.slot idx) (s.slots idx).clearBody).claimAt k (.resetLifecycle h) with
      writers := update s.writers idx [] }
  | .resetLifecycle h =>
    let idx := h % cfg.size
    some ((s.assign (.slot idx)
      ((s.slots idx).withLifecycle (edumpiLc (h + 1) .none))).claimAt k (.activate h))
  | .activate h =>
    some { s.claimAt k (.slot h) with
      states := update s.states (h % cfg.size) .active }
  | .slot _ | .scratch => none

/-- What can happen next. -/
inductive Action (K T : Type) where
  | claim (k : K)
  /-- Some thread stores into an entry. -/
  | store (w : K) (p : Pointer T) (change : QEntry → QEntry)
  | storeLifecycle (w : K) (p : Pointer T) (word : Nat)
  /-- The consumer calls the drain function. -/
  | drainCall (force : Bool) (max : Int)
  | drain (clock : Int)

/-- One memory access. -/
def step (cfg : Config) (thread : K → T) (s : State K T) : Action K T → Option (State K T)
  | .claim k => edumpiAmtRingClaim cfg thread k s
  | .store w p change => some (s.store w p change)
  | .storeLifecycle w p word => some (s.storeLifecycle w p word)
  | .drainCall force max =>
    if s.drain = .idle then some { s.drainAt .top with force := force, max := max, handed := 0 }
    else none
  | .drain clock => edumpiAmtRingDrain cfg clock s

end Machine

/-- The ticket a call of the claim function has taken. -/
def ClaimPc.ticket : ClaimPc → Option Nat
  | .resetBody h | .resetLifecycle h | .activate h | .slot h => some h
  | _ => none

/-- The ticket whose slot a call of the claim function is still preparing. -/
def ClaimPc.preparing : ClaimPc → Option Nat
  | .resetBody h | .resetLifecycle h | .activate h => some h
  | _ => none

/-- The event was counted as dropped. -/
def ClaimPc.dropped : ClaimPc → Bool
  | .zeroScratch | .scratch => true
  | _ => false

/-- The call has taken a ticket or was counted as dropped. -/
def ClaimPc.passed (pc : ClaimPc) : Bool :=
  pc.ticket.isSome || pc.dropped

/-- The consumer looks at the entry of the oldest ticket. -/
def DrainPc.looking : DrainPc → Bool
  | .idle | .top | .loadState | .free | .advance => false
  | _ => true

/-- The oldest ticket has left, and its slot is being given back. -/
def DrainPc.leaving : DrainPc → Bool
  | .free | .advance => true
  | _ => false

attribute [simp] ClaimPc.preparing ClaimPc.dropped DrainPc.looking DrainPc.leaving

end EduMpi.AmtRing
