import EduMpi.Pml.UcxRows
import Mathlib.Algebra.BigOperators.Fin

/-! A collective call whose algorithm posts receives that all carry the entry of the collective. -/

namespace EduMpi.Collective

open Machine
open Ucx (RecvStatus IrecvArgs)
open AmtRing (edumpiAmtRingClaim)
open List (replicate)

/-- A collective call, the receives its algorithm posts, and how they end. -/
structure Config (k : Nat) (T : Type) where
  ring : AmtRing.Config
  process : Process
  function : String
  sendType : Option Datatype
  recvType : Option Datatype
  comm : Comm
  op : Option Op
  receives : Fin k → IrecvArgs
  status : Fin k → RecvStatus
  thread : T
  /-- The threads on which the completions of the receives run. -/
  finisher : Fin k → T

/-- Where the wrapper of the collective stands. -/
inductive WrapperPc (k : Nat) where
  | claiming
  | fill
  /-- The algorithm has posted this many receives. -/
  | algorithm (posted : Nat)
  | receiving (i : Fin k)
  | stampSec
  | stampNsec (now : Timespec)
  | returned
deriving DecidableEq, Repr

/-- The entry is filled and the wrapper has yet to stamp its end. -/
def WrapperPc.unstamped {k : Nat} : WrapperPc k → Bool
  | .algorithm _ | .receiving _ | .stampSec => true
  | _ => false

/-- The wrapper, and the PML with the collective itself at `none` and its receives at `some`. -/
structure State (k : Nat) (T : Type) where
  wrapper : WrapperPc k
  pml : Ucx.State (Option (Fin k)) T

variable {k : Nat} {T : Type}

/-- A receive of the algorithm, which the transport posts. -/
def Config.receive (cfg : Config k T) (i : Fin k) : IrecvArgs :=
  { cfg.receives i with outcome := .posted }

/-- The receives as the PML sees them. -/
def Config.pml (cfg : Config k T) : Ucx.Config (Option (Fin k)) T where
  ring := cfg.ring
  process := cfg.process
  call := fun c => c.elim (.other []) fun i => .irecv (cfg.receive i)
  status := fun c => c.elim ⟨true, 0, 0⟩ cfg.status
  thread := fun _ => cfg.thread
  finisher := fun c => c.elim cfg.thread cfg.finisher

/-- The arguments with which a blocking collective fills its entry. -/
def Config.entryArgs (cfg : Config k T) : EntryArgs where
  dest := -1
  function := cfg.function
  functionLen := cfg.function.length
  sendCount := 0
  recvCount := 0
  commType := "collective"
  commTypeLen := 10
  sendType := cfg.sendType
  recvType := cfg.recvType
  comm := cfg.comm
  blocking := 1
  op := cfg.op

section Machine

variable [DecidableEq T]

def initial : State k T where
  wrapper := .claiming
  pml := Ucx.initial

def State.wrapperAt (s : State k T) (pc : WrapperPc k) : State k T :=
  { s with wrapper := pc }

/-- The algorithm calls `mca_pml_ucx_irecv` with the entry of the collective. -/
def State.carry (s : State k T) (i : Fin k) : State k T :=
  let ring := s.pml.ring.claimAt (.call (some i)) (s.pml.ring.claims (.call none))
  { s with pml := { s.pml with ring := ring }.callAt (some i) .post }

/-- All receives of the algorithm are finished. -/
def State.waited (s : State k T) : Prop :=
  ∀ i, s.pml.callbacks (some i) = .ran
    ∧ (s.pml.completes (some i) = .finished ∨ s.pml.completes (some i) = .wrote)

instance (s : State k T) : Decidable s.waited :=
  inferInstanceAs (Decidable (∀ i, s.pml.callbacks (some i) = .ran
    ∧ (s.pml.completes (some i) = .finished ∨ s.pml.completes (some i) = .wrote)))

/-- One memory access of the wrapper or of the algorithm it runs. -/
def wrapperStep (cfg : Config k T) (now : Timespec) (s : State k T) : Option (State k T) :=
  match s.wrapper with
  | .claiming =>
    match edumpiAmtRingClaim cfg.ring cfg.pml.threadOf (.call none) s.pml.ring with
    | some ring => some { s with pml := { s.pml with ring := ring } }
    | none => some (s.wrapperAt .fill)
  | .fill =>
    some { s with
      wrapper := .algorithm 0
      pml := s.pml.store cfg.pml (.call none) fun item =>
        { initQentry cfg.process cfg.entryArgs item with startTime := now } }
  | .algorithm posted =>
    if left : posted < k then some ((s.carry ⟨posted, left⟩).wrapperAt (.receiving ⟨posted, left⟩))
    else if s.waited then some (s.wrapperAt .stampSec)
    else none
  | .receiving i =>
    -- Where a receive call would stamp its own entry, the algorithm goes on.
    if s.pml.calls (some i) = .stampSec then some (s.wrapperAt (.algorithm (i + 1)))
    else (Ucx.mpiIrecv cfg.pml (some i) (cfg.receive i) now s.pml).map fun pml =>
      { s with pml := pml }
  | .stampSec =>
    some { s with
      wrapper := .stampNsec now
      pml := s.pml.store cfg.pml (.call none) fun item =>
        { item with endTime := { item.endTime with tvSec := now.tvSec } } }
  | .stampNsec now =>
    some { s with
      wrapper := .returned
      pml := s.pml.store cfg.pml (.call none) fun item =>
        { item with endTime := { item.endTime with tvNsec := now.tvNsec } } }
  | .returned => none

/-- What can happen next. -/
inductive Action (k : Nat) where
  | wrapper (now : Timespec)
  | callback (i : Fin k)
  | complete (i : Fin k) (now : Timespec)
  | drainCall (force : Bool) (max : Int)
  | drain (clock : Int)

/-- One memory access of one of the threads. -/
def step (cfg : Config k T) (s : State k T) : Action k → Option (State k T)
  | .wrapper now => wrapperStep cfg now s
  | .callback i =>
    (Ucx.edumpiUcxRecvFinished cfg.pml (some i) s.pml).map fun pml => { s with pml := pml }
  | .complete i now =>
    (Ucx.edumpiUcxCompleteEntry cfg.pml (some i) now s.pml).map fun pml => { s with pml := pml }
  | .drainCall force max =>
    (Ucx.step cfg.pml s.pml (.drainCall force max)).map fun pml => { s with pml := pml }
  | .drain clock => (Ucx.step cfg.pml s.pml (.drain clock)).map fun pml => { s with pml := pml }

end Machine

/-- The collective has one row, with all that was received, and it ends when its wrapper ends it. -/
structure OneRow [DecidableEq T] (cfg : Config k T) (s : State k T) : Prop where
  unended : s.wrapper.unstamped = true →
    ∀ e, s.pml.ring.entryOf cfg.ring (.call none) = some e → e.endTime = ⟨0, 0⟩
  single : (s.pml.rows none).length ≤ 1
  alone : ∀ i, s.pml.rows (some i) = []
  summed : s.wrapper = .returned → s.pml.ring.left.length = s.pml.ring.head →
    ∃ r ∈ s.pml.rows none, r.entry.recvDatasize.toInt = ∑ i, (cfg.status i).received.toInt

section Receives

variable [DecidableEq T] {s : Ucx.State (Option (Fin k)) T}

/-- The collective claims its entry and posts one receive, and the callback of the receive runs. -/
def firstReceive (k : Nat) : List (Action (k + 1)) :=
  replicate 15 (.wrapper ⟨1, 1⟩) ++ replicate 4 (.callback 0)

/-- A completion that is about to take over the entry of the collective. -/
structure TakesOver (cfg : Config k T) (i : Fin k) (s : State k T) : Prop where
  unstamped : s.wrapper.unstamped = true
  complete : s.pml.completes (some i) = .compareExchange
  carried : s.pml.ring.claims (.call (some i)) = s.pml.ring.claims (.call none)
  claim : s.pml.ring.claims (.call none) = .slot 0
  pointer : (s.pml.ext (some i)).q = some (.slot (0 % cfg.ring.size))
  word : (s.pml.ring.deref (.slot (0 % cfg.ring.size))).lifecycle
    = edumpiLc (s.pml.ext (some i)).ticket .pending
  here : s.pml.ring.left = []

/-- For every number of receives there is an order in which the first one gets that far. -/
theorem exec_firstReceive {k : Nat} (cfg : Config (k + 1) T) :
    ∃ s, exec (step cfg) initial (firstReceive k) = some s ∧ TakesOver cfg 0 s := by
  obtain ⟨⟨size, stall, wait, pos⟩, process, function, sendType, recvType, comm, op, receives, status,
    thread, finisher⟩ := cfg
  obtain ⟨n, rfl⟩ := Nat.exists_eq_succ_of_ne_zero (Nat.pos_iff_ne_zero.mp pos)
  exact ⟨_, rfl, ⟨rfl, rfl, rfl, rfl, rfl, rfl, rfl⟩⟩

private theorem partner_step (cfg : Ucx.Config (Option (Fin k)) T) (c : Option (Fin k))
    (now : Timespec) (standing : s.completes c = .partner) :
    ∃ change, Ucx.edumpiUcxCompleteEntry cfg c now s
      = some ((s.store cfg (.call c) change).completeAt c .endSec) := by
  simp only [Ucx.edumpiUcxCompleteEntry, standing]
  exact ⟨_, rfl⟩

private theorem endSec_step (cfg : Ucx.Config (Option (Fin k)) T) (c : Option (Fin k))
    (now : Timespec) (standing : s.completes c = .endSec) :
    Ucx.edumpiUcxCompleteEntry cfg c now s = some ((s.store cfg (.call c) fun q =>
        { q with endTime := { q.endTime with tvSec := now.tvSec } }).completeAt c
          (.endNsec now)) := by
  simp only [Ucx.edumpiUcxCompleteEntry, standing]

/-- The completion stamps the end of the collective. -/
theorem TakesOver.ended {cfg : Config k T} {i : Fin k} {s : State k T} (isOver : TakesOver cfg i s) :
    ∃ t, exec (step cfg) s (replicate 3 (.complete i ⟨2, 2⟩)) = some t
      ∧ t.wrapper.unstamped = true
      ∧ ∃ e, t.pml.ring.entryOf cfg.ring (.call none) = some e ∧ e.endTime ≠ ⟨0, 0⟩ := by
  -- The word is as the receive has left it, so the exchange succeeds.
  have first : Ucx.edumpiUcxCompleteEntry cfg.pml (some i) ⟨2, 2⟩ s.pml
      = some ((s.pml.storeLifecycle (.call (some i)) (.slot (0 % cfg.ring.size))
        (edumpiLc (s.pml.ext (some i)).ticket .finishing)).completeAt (some i) .partner) := by
    simp only [Ucx.edumpiUcxCompleteEntry, isOver.complete, isOver.pointer]
    exact if_pos isOver.word
  -- The states in between are named, so that each access is looked at alone.
  generalize taken : (s.pml.storeLifecycle (.call (some i)) (.slot (0 % cfg.ring.size))
    (edumpiLc (s.pml.ext (some i)).ticket .finishing)).completeAt (some i) .partner = u at first
  have claims : u.ring.claims = s.pml.ring.claims := by
    rw [← taken]
    rfl
  have left : u.ring.left = s.pml.ring.left := by
    rw [← taken]
    rfl
  obtain ⟨change, second⟩ := partner_step cfg.pml (some i) ⟨2, 2⟩ (s := u)
    (by rw [← taken]; exact Function.update_self ..)
  generalize named : (u.store cfg.pml (.call (some i)) change).completeAt (some i) .endSec = v
    at second
  have third := endSec_step cfg.pml (some i) ⟨2, 2⟩ (s := v)
    (by rw [← named]; exact Function.update_self ..)
  have claimed : v.ring.claims (.call none) = .slot 0 := by
    rw [← named]
    exact (congrFun claims _).trans isOver.claim
  have item : v.item cfg.pml (.call (some i)) = .slot (0 % cfg.ring.size) := by
    have carried : v.ring.claims (.call (some i)) = .slot 0 := by
      rw [← named]
      exact (congrFun claims _).trans (isOver.carried.trans isOver.claim)
    rw [Ucx.State.item, AmtRing.State.given, carried]
    rfl
  have here : v.ring.left = [] := by
    rw [← named]
    exact left.trans isOver.here
  refine ⟨{ s with pml := (v.store cfg.pml (.call (some i)) fun q =>
      { q with endTime := { q.endTime with tvSec := 2 } }).completeAt (some i) (.endNsec ⟨2, 2⟩) },
    ?_, isOver.unstamped, ?_⟩
  · have steps : ∀ p : Ucx.State (Option (Fin k)) T, step cfg { s with pml := p } (.complete i ⟨2, 2⟩)
        = (Ucx.edumpiUcxCompleteEntry cfg.pml (some i) ⟨2, 2⟩ p).map fun pml =>
          { s with pml := pml } := fun _ => rfl
    simp only [replicate, exec_cons, exec_nil, Option.bind_some, Option.map_some, first, second,
      third, steps]
  · -- The receive has written its end stamp into the entry of the collective.
    have ticket : (v.ring.claims (.call none)).ticket = some 0 := by rw [claimed]; rfl
    refine ⟨_, AmtRing.entryOf_of_live (h := 0) ticket ?_, ?_⟩
    · exact Nat.le_of_eq (congrArg List.length here)
    · intro unset
      have written := congrArg Timespec.tvSec unset
      simp [Ucx.State.completeAt, Ucx.State.store, item, AmtRing.State.store, AmtRing.State.assign,
        AmtRing.State.sign, QEntry.withLifecycle] at written

end Receives

section Solo

/-- The entry says that no receive is attached and that nothing was received. -/
structure Quiet (e : QEntry) : Prop where
  word : lcState e.lifecycle = .none
  size : e.recvDatasize = 0

/-- A claimant takes the first ticket of the ring, for which there is always room. -/
structure First {K : Type} (ring : AmtRing.State K T) (k : K) : Prop where
  head : (ring.claims k).ticket = none → ring.head = 0
  loaded : ∀ h, ring.claims k = .loadTail h → h = 0
  kept : ring.claims k ≠ .drop ∧ (ring.claims k).dropped = false

/-- What holds for a collective whose algorithm posts no receive. -/
structure Solo (cfg : Config 0 T) (s : State 0 T) : Prop where
  ring : AmtRing.Inv cfg.ring s.pml.ring
  read : AmtRing.ReadWaiting s.pml.ring
  others : ∀ c, c ≠ .call none → s.pml.ring.claims c = .unborn
  first : First s.pml.ring (.call none)
  answered : s.wrapper ≠ .claiming → (s.pml.ring.claims (.call none)).answered = true
  fresh : s.wrapper = .claiming ∨ s.wrapper = .fill →
    ∀ e, s.pml.ring.entryOf cfg.ring (.call none) = some e →
      (s.pml.ring.claims (.call none)).Fresh e
  filled : s.wrapper ≠ .claiming → s.wrapper ≠ .fill →
    ∀ e, s.pml.ring.entryOf cfg.ring (.call none) = some e → Quiet e
  unended : s.wrapper.unstamped = true →
    ∀ e, s.pml.ring.entryOf cfg.ring (.call none) = some e → e.endTime = ⟨0, 0⟩
  left : ∀ r, s.pml.ring.leavingOf (.call none) = some r →
    r.emitted = true ∧ r.entry.recvDatasize = 0

variable {cfg : Config 0 T} {s t : State 0 T}

theorem First.claim {K : Type} [DecidableEq K] [DecidableEq T] {ring next : AmtRing.State K T}
    {k : K} {cfg : AmtRing.Config} {thread : K → T} (first : First ring k)
    (taken : edumpiAmtRingClaim cfg thread k ring = some next) : First next k := by
  have kept := first.kept
  have pos := cfg.sizePos
  cases AmtRing.claim_cases taken with
  | load before =>
    -- The ring is empty before the first claim.
    have empty := first.head (by rcases before with at_ | ⟨_, -, at_⟩ <;> rw [at_] <;> rfl)
    constructor <;> simp [empty]
  | full standing full =>
    have empty := first.head (by rw [standing]; rfl)
    have loaded := first.loaded _ standing
    omega
  | room standing | take standing =>
    have empty := first.head (by rw [standing]; rfl)
    constructor <;>
      simp [AmtRing.ClaimPc.ticket, empty]
  | drop standing => exact absurd standing kept.1
  | zeroScratch standing => simp [standing] at kept
  | _ =>
    constructor <;>
      simp [AmtRing.ClaimPc.ticket]

section Solos

variable (solo : Solo cfg s) {ring : AmtRing.State (Ucx.Claimant (Option (Fin 0))) T}
  {pc : WrapperPc 0}

include solo

/-- The entry is quiet as soon as its claim is answered. -/
theorem Solo.quiet {h : Nat} (given : s.pml.ring.claims (.call none) = .slot h)
    {e : QEntry} (held : s.pml.ring.entryOf cfg.ring (.call none) = some e) : Quiet e := by
  by_cases early : s.wrapper = .claiming ∨ s.wrapper = .fill
  · have fresh := solo.fresh early e held
    rw [given] at fresh
    rw [show e = _ from fresh]
    exact ⟨lcState_edumpiLc _ _, rfl⟩
  · exact solo.filled (fun at_ => early (.inl at_)) (fun at_ => early (.inr at_)) e held

/-- The claim was answered with a slot. -/
theorem Solo.given (further : s.wrapper ≠ .claiming) :
    ∃ h, s.pml.ring.claims (.call none) = .slot h := by
  have answered := solo.answered further
  have kept := solo.first.kept.2
  cases standing : s.pml.ring.claims (.call none) <;>
    simp_all

/-- A change of the ring that only moves the consumer. -/
theorem Solo.ofSame (inv : AmtRing.Inv cfg.ring ring) (read : AmtRing.ReadWaiting ring)
    (same : AmtRing.SameHoldings s.pml.ring ring) :
    Solo cfg { s with pml := { s.pml with ring := ring } } := by
  have claims : ∀ c, ring.claims c = s.pml.ring.claims c := fun c => congrFun same.claims c
  have held : ∀ c, ring.entryOf cfg.ring c = s.pml.ring.entryOf cfg.ring c := fun c =>
    AmtRing.entryOf_congr (claims c) same.slots same.left
  have gone : ∀ c, ring.leavingOf c = s.pml.ring.leavingOf c := fun c =>
    AmtRing.leavingOf_congr (claims c) same.left
  constructor
  case ring => exact inv
  case read => exact read
  case others => exact fun c other => (claims c).trans (solo.others c other)
  case first =>
    constructor
    all_goals simp only [claims, same.head]
    exacts [solo.first.head, solo.first.loaded, solo.first.kept]
  case answered =>
    simp only [claims]
    exact solo.answered
  case fresh =>
    simp only [claims, held]
    exact solo.fresh
  case filled =>
    simp only [held]
    exact solo.filled
  case unended =>
    simp only [held]
    exact solo.unended
  case left =>
    simp only [gone]
    exact solo.left

/-- The wrapper goes on without a store. -/
theorem Solo.goOn (answered : pc ≠ .claiming → (s.pml.ring.claims (.call none)).answered = true)
    (fresh : pc = .claiming ∨ pc = .fill → s.wrapper = .claiming ∨ s.wrapper = .fill)
    (filled : pc ≠ .claiming → pc ≠ .fill → s.wrapper ≠ .claiming ∧ s.wrapper ≠ .fill)
    (unended : pc.unstamped = true → s.wrapper.unstamped = true) : Solo cfg (s.wrapperAt pc) where
  ring := solo.ring
  read := solo.read
  others := solo.others
  first := solo.first
  answered := answered
  fresh := fun early => solo.fresh (fresh early)
  filled := fun further later =>
    solo.filled (filled further later).1 (filled further later).2
  unended := fun unstamped => solo.unended (unended unstamped)
  left := solo.left

/-- The consumer hands the entry over. -/
theorem Solo.emit (standing : s.pml.ring.drain = .emit)
    (inv : AmtRing.Inv cfg.ring ((s.pml.ring.leave cfg.ring true).drainAt .free)) :
    Solo cfg
      { s with pml := { s.pml with ring := (s.pml.ring.leave cfg.ring true).drainAt .free } } := by
  have looking : s.pml.ring.drain.looking = true := by rw [standing]; rfl
  obtain ⟨c, owner, given, held⟩ := solo.ring.tail_owner looking
  -- There is only one entry in the ring.
  obtain rfl : c = .call none := by
    by_contra other
    rw [solo.others c other] at given
    cases given
  obtain ⟨none, some⟩ := solo.ring.leave_holdings looking owner true (.call none)
  constructor
  case ring => exact inv
  case read =>
    intro lc reading
    cases reading
  case others => exact solo.others
  case first => exact { solo.first with }
  case answered => exact solo.answered
  case fresh | unended =>
    intro _ e here
    cases none.symm.trans here
  case filled =>
    intro _ _ e here
    cases none.symm.trans here
  case left =>
    intro r gone
    cases some.symm.trans gone
    exact ⟨rfl, (solo.quiet given held).size⟩

variable [DecidableEq T]

/-- One memory access of the consumer; it finds no waiting receive to abandon. -/
theorem Solo.drain {clock : Int}
    (taken : AmtRing.edumpiAmtRingDrain cfg.ring clock s.pml.ring = some ring) :
    Solo cfg { s with pml := { s.pml with ring := ring } } := by
  have next := solo.ring.drain taken
  rcases AmtRing.drain_cases taken with same | ⟨standing, rfl⟩ | ⟨lc, standing, word, rfl⟩
  · exact solo.ofSame next (.drain taken) same
  · exact solo.emit standing next
  · exfalso
    obtain ⟨c, _, given, held⟩ := solo.ring.tail_owner (by rw [standing]; rfl)
    obtain rfl : c = .call none := by
      by_contra other
      rw [solo.others c other] at given
      cases given
    have waiting := solo.read lc standing
    rw [← word, (solo.quiet given held).word] at waiting
    cases waiting

/-- One memory access of the claim of the collective. -/
theorem Solo.claim (claiming : s.wrapper = .claiming)
    (taken : edumpiAmtRingClaim cfg.ring cfg.pml.threadOf (.call none) s.pml.ring = some ring) :
    Solo cfg { s with pml := { s.pml with ring := ring } } := by
  have beside := AmtRing.claim_beside taken
  constructor
  case ring => exact solo.ring.claim taken
  case read =>
    intro lc reading
    exact solo.read lc (beside.drain ▸ reading)
  case others =>
    intro c other
    exact (solo.ring.claim_others taken other).1.trans (solo.others c other)
  case first => exact solo.first.claim taken
  case answered | filled => exact fun further => absurd claiming further
  case fresh => exact fun _ => solo.ring.claim_fresh taken (solo.fresh (.inl claiming))
  case unended =>
    intro unstamped
    rw [show s.wrapper = _ from claiming] at unstamped
    cases unstamped
  case left =>
    intro r gone
    rw [show ring.leavingOf (.call none) = none from solo.ring.claim_leavingOf taken] at gone
    cases gone

/-- Plain stores of the wrapper into its entry. -/
theorem Solo.store (further : s.wrapper ≠ .claiming)
    (later : pc ≠ .claiming ∧ pc ≠ .fill) {change : QEntry → QEntry}
    (size : ∀ e, Quiet e → (change e).recvDatasize = 0)
    (unended : pc.unstamped = true → ∀ e, s.pml.ring.entryOf cfg.ring (.call none) = some e →
      (change e).endTime = ⟨0, 0⟩) :
    Solo cfg { s with wrapper := pc, pml := s.pml.store cfg.pml (.call none) change } := by
  have answered := solo.answered further
  obtain ⟨h, given⟩ := solo.given further
  have held : ∀ e, (s.pml.store cfg.pml (.call none) change).ring.entryOf cfg.ring (.call none)
      = some e → ∃ old, s.pml.ring.entryOf cfg.ring (.call none) = some old
        ∧ e = (change old).withLifecycle old.lifecycle := by
    intro e held
    cases gone : s.pml.ring.leavingOf (.call none) with
    | none =>
      have stored := solo.ring.entryOf_store answered gone cfg.pml.threadOf change (.call none)
      obtain ⟨old, before, rfl⟩ := Option.map_eq_some_iff.mp (stored.symm.trans held)
      exact ⟨old, before, rfl⟩
    | some r =>
      -- The consumer has already taken the entry.
      have away : (s.pml.store cfg.pml (.call none) change).ring.leavingOf (.call none) = some r :=
        gone
      rw [AmtRing.leavingOf_eq_none_of_entryOf held] at away
      cases away
  constructor
  case ring => exact solo.ring.store _ _ _
  case read => exact solo.read
  case others => exact solo.others
  case first => exact { solo.first with }
  case answered => exact fun _ => answered
  case fresh => exact fun early => absurd early (not_or.mpr later)
  case filled =>
    intro _ _ e here
    obtain ⟨old, before, rfl⟩ := held e here
    have quiet := solo.quiet given before
    exact ⟨quiet.word, size old quiet⟩
  case unended =>
    intro unstamped e here
    obtain ⟨old, before, rfl⟩ := held e here
    exact unended unstamped old before
  case left => exact solo.left

/-- One step of the wrapper. -/
theorem Solo.wrapper {now : Timespec} (taken : wrapperStep cfg now s = some t) : Solo cfg t := by
  unfold wrapperStep at taken
  split at taken
  case h_1 claiming =>
    split at taken
    · rename_i ring claimed
      cases taken
      exact solo.claim claiming claimed
    · rename_i answer
      cases taken
      exact solo.goOn (fun _ => AmtRing.claim_answers.mp answer) (fun _ => .inl claiming)
        (fun _ later => absurd rfl later) (fun unstamped => by cases unstamped)
  case h_2 filling =>
    cases taken
    exact solo.store (by simp [filling]) (by simp) (fun _ _ => rfl) (fun _ _ _ => rfl)
  case h_3 posted standing =>
    rw [dif_neg (Nat.not_lt_zero posted)] at taken
    split at taken
    · cases taken
      exact solo.goOn (fun _ => solo.answered (by simp [standing])) (by simp) (by simp [standing])
        (by simp [standing, WrapperPc.unstamped])
    · cases taken
  case h_4 i _ => exact i.elim0
  case h_5 standing | h_6 standing =>
    cases taken
    exact solo.store (by simp [standing]) (by simp) (fun _ quiet => quiet.size)
      (fun unstamped => by cases unstamped)
  case h_7 => cases taken

end Solos

theorem solo_step [DecidableEq T] (s : State 0 T) (a : Action 0) (t : State 0 T)
    (solo : Solo cfg s) (taken : step cfg s a = some t) : Solo cfg t := by
  cases a with
  | wrapper now => exact solo.wrapper taken
  | callback i => exact i.elim0
  | complete i now => exact i.elim0
  | drainCall force max =>
    simp only [step, Ucx.step, Option.map_map, Option.map_eq_some_iff] at taken
    obtain ⟨ring, called, rfl⟩ := taken
    have next := AmtRing.inv_step _ _ _ solo.ring called
    obtain ⟨-, rfl⟩ := AmtRing.step_drainCall_eq_some.mp called
    refine solo.ofSame next ?_ ⟨rfl, rfl, rfl, rfl, rfl, rfl⟩
    intro lc reading
    cases reading
  | drain clock =>
    simp only [step, Ucx.step, Option.map_map, Option.map_eq_some_iff] at taken
    obtain ⟨ring, drained, rfl⟩ := taken
    exact solo.drain drained

theorem solo_initial : Solo cfg (initial : State 0 T) where
  ring := AmtRing.inv_initial _
  read := by
    intro lc reading
    cases reading
  others := fun _ _ => rfl
  first := ⟨fun _ => rfl, fun h standing => (by cases standing), fun drop => (by cases drop), rfl⟩
  answered := fun further => absurd rfl further
  fresh := fun _ e held => (by cases held)
  filled := fun further => absurd rfl further
  unended := fun unstamped => (by cases unstamped)
  left := fun r gone => (by cases gone)

/-- The records of the collective are its row. -/
theorem Solo.mem_rows (solo : Solo cfg s)
    {r : AmtRing.Leaving (Ucx.Claimant (Option (Fin 0)))} :
    r ∈ s.pml.rows none ↔ s.pml.ring.leavingOf (.call none) = some r := by
  simp only [Ucx.State.rows, List.mem_filter, Bool.and_eq_true, decide_eq_true_eq]
  constructor
  · rintro ⟨among, _, owner | owner⟩
    · exact solo.ring.leavingOf_eq among owner
    · have late := solo.ring.leavingOf_eq among owner
      rw [AmtRing.leavingOf_of_none (by rw [solo.others _ (by simp)]; rfl)] at late
      cases late
  · intro gone
    obtain ⟨among, owner⟩ := solo.ring.mem_of_leavingOf gone
    exact ⟨among, (solo.left r gone).1, .inl owner⟩

theorem Solo.oneRow [DecidableEq T] (solo : Solo cfg s) : OneRow cfg s where
  unended := solo.unended
  single := by
    refine solo.ring.log.filter_le_one ?_
    intro r among r' among'
    exact Option.some.inj ((solo.mem_rows.mp among).symm.trans (solo.mem_rows.mp among'))
  alone := fun i => i.elim0
  summed := by
    intro returned drained
    obtain ⟨h, given⟩ := solo.given (by simp [returned])
    obtain ⟨r, gone⟩ := solo.ring.leavingOf_of_drained drained
      (show (s.pml.ring.claims (.call none)).ticket = some h by rw [given]; rfl)
    refine ⟨r, solo.mem_rows.mpr gone, ?_⟩
    rw [(solo.left r gone).2]
    rfl

end Solo

/-- Each collective has its one row in every order exactly if its algorithm posts no receive. -/
theorem collective_one_row_iff [DecidableEq T] (cfg : Config k T) :
    (∀ actions s, exec (step cfg) initial actions = some s → OneRow cfg s) ↔ k = 0 := by
  constructor
  · intro always
    by_contra some
    obtain ⟨k, rfl⟩ := Nat.exists_eq_succ_of_ne_zero some
    obtain ⟨s, ran, isOver⟩ := exec_firstReceive cfg
    obtain ⟨t, ended, unstamped, e, held, set⟩ := isOver.ended
    have row := always _ t (exec_append_eq_some.mpr ⟨s, ran, ended⟩)
    exact set (row.unended unstamped e held)
  · rintro rfl actions s ran
    exact (exec_keeps solo_step solo_initial ran).oneRow

/-- A gather at a root that receives from two other processes. -/
def gatherOfTwo : Config 2 Bool where
  ring := ⟨2, 10, 10, Nat.two_pos⟩
  process := ⟨0, [], 3⟩
  function := "MPI_Gather"
  sendType := some .int
  recvType := some .int
  comm := .world
  op := none
  receives := fun i => ⟨if i = 0 then 1 else 2, 1, .int, .world, .posted⟩
  status := fun i => ⟨false, if i = 0 then 8 else 16, if i = 0 then 1 else 2⟩
  thread := false
  finisher := fun _ => true

/-- The second completion finds the word of the first one, and its receive gets a row of its own. -/
theorem gather_of_two_has_two_rows :
    ∃ actions s, exec (step gatherOfTwo) initial actions = some s ∧ s.wrapper = .returned
      ∧ s.pml.ring.left.length = s.pml.ring.head
      ∧ (s.pml.rows none).map (·.entry.recvDatasize) = [8]
      ∧ (s.pml.rows (some 1)).map (·.entry.recvDatasize) = [16] ∧ ¬ OneRow gatherOfTwo s := by
  let actions : List (Action 2) :=
    replicate 22 (.wrapper ⟨1, 1⟩)
      ++ replicate 4 (.callback 0) ++ replicate 4 (.callback 1)
      ++ replicate 7 (.complete 0 ⟨2, 2⟩) ++ replicate 11 (.complete 1 ⟨3, 3⟩)
      ++ replicate 3 (.wrapper ⟨4, 4⟩) ++ .drainCall false 5 :: replicate 15 (.drain 5)
  refine ⟨actions, reaches_of_decide (P := fun s => s.wrapper = .returned
      ∧ s.pml.ring.left.length = s.pml.ring.head
      ∧ (s.pml.rows none).map (·.entry.recvDatasize) = [8]
      ∧ (s.pml.rows (some 1)).map (·.entry.recvDatasize) = [16]) (by decide +kernel)
    fun s _ ⟨returned, drained, own, other⟩ => ⟨returned, drained, own, other, fun row => ?_⟩⟩
  rw [row.alone 1] at other
  cases other

end EduMpi.Collective
