import EduMpi.Pml.UcxMove

/-! What holds for all calls of the UCX PML together, as long as slots are given back in time. -/

namespace EduMpi.Ucx

open Machine
open Function (update update_eq_self update_idem update_of_ne update_self)
open AmtRing (ClaimPc Leaving Pointer NoneWaiting ReadWaiting edumpiAmtRingClaim edumpiAmtRingDrain)

variable {C T : Type}

/-- What a call sees of the state. -/
@[simps] def State.view (cfg : Config C T) (s : State C T) (c : C) : View C T where
  call := s.calls c
  callback := s.callbacks c
  complete := s.completes c
  ext := s.ext c
  claim := s.ring.claims (.call c)
  entry := s.ring.entryOf cfg.ring (.call c)
  leaving := s.ring.leavingOf (.call c)
  lateClaim := s.ring.claims (.late c)
  lateEntry := s.ring.entryOf cfg.ring (.late c)
  lateLeaving := s.ring.leavingOf (.late c)

/-- How far the entry of a call has come with its receive. -/
def State.phase (s : State C T) (c : C) : Phase :=
  if (s.ext c).posted && decide (s.calls c ≠ .snapshot ∧ s.calls c ≠ .arm) then
    (s.completes c).phase
  else .unarmed

/-- The call has returned, or the late entry is written. -/
def State.returned (s : State C T) : Claimant C → Prop
  | .call c => s.calls c = .returned
  | .late c => s.completes c = .wrote

/-- The claimant has returned, and no receive waits on its entry or fills it. -/
def State.settled (s : State C T) : Claimant C → Prop
  | .call c => s.calls c = .returned ∧ s.phase c ≠ .waiting ∧ s.phase c ≠ .filling
  | .late c => s.completes c = .wrote

instance (s : State C T) : DecidablePred s.returned
  | .call c => inferInstanceAs (Decidable (s.calls c = .returned))
  | .late c => inferInstanceAs (Decidable (s.completes c = .wrote))

instance (s : State C T) : DecidablePred s.settled
  | .call c => inferInstanceAs
      (Decidable (s.calls c = .returned ∧ s.phase c ≠ .waiting ∧ s.phase c ≠ .filling))
  | .late c => inferInstanceAs (Decidable (s.completes c = .wrote))

/-- An entry is handed over only from a settled claimant, and given up only after its return. -/
def InTimeAt (cfg : Config C T) (s : State C T) : AmtRing.DrainPc → Prop
  | .emit => ∀ k ∈ s.ring.owner s.ring.tail, s.settled k
  | .abandonExchange lc => (s.ring.tailEntry cfg.ring).lifecycle = lc →
      ∀ k ∈ s.ring.owner s.ring.tail, s.returned k
  | _ => True

/-- The consumer gives no slot back too early. -/
def InTime (cfg : Config C T) (s : State C T) : Action C → Prop
  | .drain _ => InTimeAt cfg s s.ring.drain
  | _ => True

instance (cfg : Config C T) (s : State C T) : DecidablePred (InTimeAt cfg s)
  | .emit => inferInstanceAs (Decidable (∀ k ∈ s.ring.owner s.ring.tail, s.settled k))
  | .abandonExchange lc => inferInstanceAs (Decidable
      ((s.ring.tailEntry cfg.ring).lifecycle = lc → ∀ k ∈ s.ring.owner s.ring.tail, s.returned k))
  | .idle | .top | .loadState | .endSec | .endNsec | .pending | .done | .age | .ageSec _
  | .ageNsec _ _ | .finishing | .abandonLoad | .stall | .free | .advance => isTrue trivial

instance (cfg : Config C T) (s : State C T) : DecidablePred (InTime cfg s)
  | .drain _ => inferInstanceAs (Decidable (InTimeAt cfg s s.ring.drain))
  | .call _ _ | .callback _ | .complete _ _ | .drainCall _ _ => isTrue trivial

/-- What holds for the ring alone. -/
structure RingOk (cfg : AmtRing.Config) (ring : AmtRing.State (Claimant C) T) : Prop where
  inv : AmtRing.Inv cfg ring
  noWaiting : NoneWaiting cfg ring
  read : ReadWaiting ring
  scratch : ∀ thread, lcTicket (ring.scratch thread).lifecycle = 0

/-- What holds in every state of a run that gives slots back in time. -/
structure Inv (cfg : Config C T) (s : State C T) : Prop where
  ring : RingOk cfg.ring s.ring
  views : ∀ c, (s.view cfg c).Ok (cfg.place c) (cfg.status c)
  running : ∀ c, (s.calls c).active = true → s.running (cfg.thread c) = some c

/-- A claimant that may store: it was given an entry, and its ticket has not left. -/
def State.holds (s : State C T) (k : Claimant C) : Prop :=
  (s.ring.claims k).answered = true ∧ s.ring.leavingOf k = none

section Holds

variable {cfg : Config C T} {s : State C T} {c : C} {k : Claimant C}

theorem inv_initial : Inv cfg (initial : State C T) where
  ring := {
    inv := AmtRing.inv_initial _
    noWaiting := by
      intro h below
      cases below
    read := by
      intro lc standing
      cases standing
    scratch := by simp [initial, AmtRing.initial, QEntry.zero, lcTicket] }
  views := fun _ => View.ok_initial
  running := by
    intro c active
    cases active

/-- A dropped event has no entry in the ring. -/
theorem not_scratch_of_held {e : QEntry}
    (held : s.ring.entryOf cfg.ring k = some e) : s.ring.claims k ≠ .scratch := by
  intro dropped
  obtain ⟨h, ticket, _⟩ := AmtRing.live_of_entryOf held
  rw [dropped] at ticket
  cases ticket

section Inv

variable (inv : Inv cfg s)

include inv

/-- Two calls in progress are on different threads. -/
theorem Inv.same_of_thread {c' : C} (active : (s.calls c).active = true)
    (active' : (s.calls c').active = true) (thread : cfg.thread c = cfg.thread c') : c = c' := by
  have mine := inv.running c active
  rw [thread, inv.running c' active', Option.some.injEq] at mine
  exact mine.symm

/-- A call in progress holds its entry. -/
theorem Inv.holds_call (begun : s.calls c ≠ .idle) (claimed : s.calls c ≠ .claiming)
    (going : s.calls c ≠ .returned) : s.holds (.call c) :=
  ⟨(inv.views c).answered begun claimed, (inv.views c).here going⟩

/-- The receive of a completion is attached to the entry of its call. -/
theorem Inv.attached (begun : s.completes c ≠ .none) :
    (s.ext c).q = some (s.item cfg (.call c)) ∧ (s.view cfg c).armed = true
    ∧ (s.ring.claims (.call c)).answered = true
    ∧ (s.ext c).ticket = (s.ring.claims (.call c)).number := by
  have ok := inv.views c
  obtain ⟨q, pointer⟩ := Option.isSome_iff_exists.mp (ok.attached begun)
  obtain ⟨here, armed⟩ := ok.pointer q pointer
  have posted := View.posted_of_armed armed
  obtain ⟨begun, claimed⟩ := ok.claimed_of_posted posted
  exact ⟨pointer.trans (congrArg some here), armed, ok.answered begun claimed,
    ok.ticket posted (View.past_of_armed armed).1⟩

/-- A completion in place holds the entry of its call. -/
theorem Inv.holds_filling (filling : (s.completes c).phase = .filling) : s.holds (.call c) := by
  obtain ⟨_, _, answered, _⟩ := inv.attached (c := c) (by
    intro none
    simp [none] at filling)
  exact ⟨answered, ((inv.views c).here_of_filling filling).2.1⟩

/-- A completion holds its late entry until it is written. -/
theorem Inv.holds_late (late : (s.completes c).late = true)
    (unfinished : s.completes c ≠ .wrote) : s.holds (.late c) :=
  ⟨(inv.views c).lateAnswered late, (inv.views c).lateHere unfinished⟩

/-- The number in the lifecycle word of an entry whose receive is not yet attached. -/
theorem Inv.number_of_snapshot (standing : s.calls c = .snapshot) :
    lcTicket (s.ring.deref (s.item cfg (.call c))).lifecycle = (s.ring.claims (.call c)).number := by
  -- A call between claim and attachment has an entry in the ring or a scratch entry.
  have ok := inv.views c
  have answered := ok.answered (by simp [standing]) (by simp [standing])
  have here : s.ring.leavingOf (.call c) = none := ok.here (by simp [standing])
  rcases AmtRing.ticket_of_answered cfg.ring cfg.threadOf answered with
    ⟨h, ticket, _⟩ | ⟨ticket, pointer⟩
  · have live := (AmtRing.leavingOf_eq_none_iff ticket).mp here
    have held : s.ring.entryOf cfg.ring (.call c) = some _ := AmtRing.entryOf_of_live ticket live
    rw [State.item, AmtRing.deref_given answered held,
      ok.word (by simp [standing]) _ held, lcTicket_edumpiLc]
    rfl
  · rw [State.item, pointer]
    have dropped : s.ring.claims (.call c) = .scratch := by
      cases claim : s.ring.claims (.call c) <;>
        simp_all [ClaimPc.ticket]
    rw [dropped]
    exact inv.ring.scratch _

/-- The lifecycle word says that a receive waits only while the ticket is in the ring. -/
theorem Inv.here_of_word (answered : (s.ring.claims (.call c)).answered = true)
    (word : (s.ring.deref (s.item cfg (.call c))).lifecycle
      = edumpiLc (s.ring.claims (.call c)).number .pending) :
    s.ring.leavingOf (.call c) = none := by
  cases gone : s.ring.leavingOf (.call c) with
  | none => rfl
  | some r =>
    obtain ⟨h, ticket, found⟩ := AmtRing.left_of_leavingOf gone
    have below := (List.getElem?_eq_some_iff.mp found).1
    have claim : s.ring.claims (.call c) = .slot h := by
      cases claim : s.ring.claims (.call c) <;> simp_all [ClaimPc.ticket]
    refine absurd ?_ (inv.ring.noWaiting h below)
    simpa [State.item, AmtRing.State.given, claim, AmtRing.State.deref, ClaimPc.number] using word

/-- A receive that finds another word finds its ticket gone, or was dropped. -/
theorem Inv.gone_of_word (waiting : (s.completes c).phase = .waiting)
    (begun : s.completes c ≠ .none)
    (word : (s.ring.deref (s.item cfg (.call c))).lifecycle
      ≠ edumpiLc (s.ring.claims (.call c)).number .pending) :
    s.ring.entryOf cfg.ring (.call c) = none
    ∧ (s.ring.claims (.call c) = .scratch ∨ (s.ring.leavingOf (.call c)).isSome = true) := by
  have ok := inv.views c
  obtain ⟨_, armed, answered, _⟩ := inv.attached begun
  have claimed := ok.claimed_of_armed armed
  have phase : (s.view cfg c).phase = .waiting := (if_pos armed).trans waiting
  -- While it is in the ring, the word is the one the phase says.
  have empty : s.ring.entryOf cfg.ring (.call c) = none := by
    cases held : s.ring.entryOf cfg.ring (.call c) with
    | none => rfl
    | some e =>
      refine absurd ?_ word
      rw [State.item, AmtRing.deref_given answered held, ok.word claimed e held, phase]
      rfl
  refine ⟨empty, ?_⟩
  rcases AmtRing.ticket_of_answered cfg.ring cfg.threadOf answered with
    ⟨h, ticket, _⟩ | ⟨ticket, _⟩
  · -- The claim has a ticket, so the entry has left the ring.
    right
    by_contra unseen
    have live := (AmtRing.leavingOf_eq_none_iff ticket).mp (by simpa using unseen)
    rw [AmtRing.entryOf_of_live ticket live] at empty
    cases empty
  · left
    cases claim : s.ring.claims (.call c) <;> simp_all [ClaimPc.ticket]

/-- The lifecycle word under which a claimant's ticket is in the ring. -/
theorem Inv.tail_word (claim : s.ring.claims k = .slot s.ring.tail)
    (held : s.ring.entryOf cfg.ring k = some (s.ring.tailEntry cfg.ring)) :
    match k with
    | .call c => s.calls c ≠ .claiming →
        (s.ring.tailEntry cfg.ring).lifecycle = edumpiLc (s.ring.tail + 1) (s.phase c).word
    | .late _ => (s.ring.tailEntry cfg.ring).lifecycle = edumpiLc (s.ring.tail + 1) .none := by
  cases k with
  | call c =>
    intro claimed
    have word := (inv.views c).word claimed _ held
    rwa [show (s.view cfg c).claim = .slot s.ring.tail from claim] at word
  | late c =>
    by_cases claiming : s.completes c = .claiming
    · exact congrArg QEntry.lifecycle
        (eq_of_fresh_slot ((inv.views c).lateFresh claiming _ held) claim)
    · have word := (inv.views c).lateWord claiming _ held
      rwa [show (s.view cfg c).lateClaim = .slot s.ring.tail from claim] at word

/-- A settled claimant that holds an entry has a phase in which the entry may be handed over. -/
theorem Inv.handsOver_of_settled (settled : s.settled (.call c))
    {e : QEntry} (held : s.ring.entryOf cfg.ring (.call c) = some e) :
    (s.phase c).handsOver = true := by
  obtain ⟨_, notWaiting, notFilling⟩ := settled
  have here := AmtRing.leavingOf_eq_none_of_entryOf held
  cases phase : s.phase c with
  | unarmed => rfl
  | filled => rfl
  | waiting => exact absurd phase notWaiting
  | filling => exact absurd phase notFilling
  | lost =>
    rcases (inv.views c).lost phase with dropped | gone
    · exact absurd dropped (not_scratch_of_held held)
    · rw [show (s.view cfg c).leaving = none from here] at gone
      cases gone

end Inv

variable [DecidableEq T]

private theorem assign_scratch_ticket {ring : AmtRing.State (Claimant C) T} {p : Pointer T}
    {entry : QEntry} (clear : ∀ thread, lcTicket (ring.scratch thread).lifecycle = 0)
    (kept : ∀ thread, p = .scratch thread → lcTicket entry.lifecycle = 0) (thread : T) :
    lcTicket ((ring.assign p entry).scratch thread).lifecycle = 0 := by
  cases p with
  | slot idx => exact clear thread
  | scratch thread' =>
    by_cases same : thread = thread'
    · subst same
      simpa [AmtRing.State.assign] using kept thread rfl
    · simpa [AmtRing.State.assign, same] using clear thread

/-- Plain stores keep what the ring and the scratch entries have to keep. -/
theorem Inv.storeRing (inv : Inv cfg s) (holds : s.holds k)
    (change : QEntry → QEntry) : RingOk cfg.ring (s.store cfg k change).ring := by
  refine ⟨inv.ring.inv.store _ _ _, inv.ring.noWaiting.assign_given holds.1 holds.2 (.inl rfl),
    inv.ring.read, ?_⟩
  refine assign_scratch_ticket inv.ring.scratch ?_
  intro thread same
  rw [same]
  exact inv.ring.scratch thread

/-- A lifecycle word of the entry's own number keeps what the ring has to keep. -/
theorem Inv.storeLifecycleRing (inv : Inv cfg s) (holds : s.holds k)
    (state : LcState) :
    RingOk cfg.ring
      (s.storeLifecycle k (s.item cfg k) (edumpiLc (s.ring.claims k).number state)).ring := by
  refine ⟨inv.ring.inv.storeLifecycle _ _ _,
    inv.ring.noWaiting.assign_given holds.1 holds.2 (.inr ?_), inv.ring.read, ?_⟩
  have answered := holds.1
  · intro h ticket
    cases standing : s.ring.claims k <;>
      simp_all [ClaimPc.ticket, ClaimPc.number]
  · refine assign_scratch_ticket inv.ring.scratch ?_
    intro thread same
    cases standing : s.ring.claims k <;>
      simp_all [State.item, AmtRing.State.given, ClaimPc.number]

end Holds

variable [DecidableEq C]

/-- A step changes what one call sees, in one of the ways a call can move. -/
def Moved (cfg : Config C T) (s t : State C T) : Prop :=
  t.view cfg = s.view cfg
    ∨ ∃ c v, t.view cfg = update (s.view cfg) c v ∧ Move cfg c (s.view cfg c) v

/-- What a step leads to. -/
structure Next (cfg : Config C T) (s t : State C T) : Prop where
  inv : Inv cfg t
  moved : Moved cfg s t

section Views

variable {cfg : Config C T} {s t : State C T} {c : C} {v : View C T} {k : Claimant C}
  {ring : AmtRing.State (Claimant C) T}

/-- What holds for every call holds after one of them has moved. -/
theorem Inv.views_of_move (inv : Inv cfg s)
    (view : t.view cfg = update (s.view cfg) c v) (move : Move cfg c (s.view cfg c) v)
    (c' : C) : (t.view cfg c').Ok (cfg.place c') (cfg.status c') := by
  rw [view]
  by_cases same : c' = c
  · subst same
    rw [update_self]
    exact move.ok (inv.views c')
  · rw [update_of_ne same]
    exact inv.views c'

/-- A step in which one call moves. -/
theorem Inv.nextOf (inv : Inv cfg s) (view : t.view cfg = update (s.view cfg) c v)
    (ring : RingOk cfg.ring t.ring) (running : t.running = s.running)
    (move : Move cfg c (s.view cfg c) v)
    (going : v.call.active = true → (s.calls c).active = true) : Next cfg s t := by
  refine ⟨⟨ring, inv.views_of_move view move, ?_⟩, .inr ⟨c, v, view, move⟩⟩
  intro c' standing
  rw [running]
  have seen : t.calls c' = (update (s.view cfg) c v c').call := by
    rw [← view]
    rfl
  rw [seen] at standing
  by_cases same : c' = c
  · subst same
    rw [update_self] at standing
    exact inv.running c' (going standing)
  · rw [update_of_ne same] at standing
    exact inv.running c' standing

/-- The call a claimant belongs to. -/
def Claimant.owner : Claimant C → C
  | .call c | .late c => c

/-- What a call sees when one of its claimants holds something else. -/
def View.hold (v : View C T) (claim : ClaimPc) (entry : Option QEntry)
    (leaving : Option (Leaving (Claimant C))) : Claimant C → View C T
  | .call _ => { v with claim := claim, entry := entry, leaving := leaving }
  | .late _ => { v with lateClaim := claim, lateEntry := entry, lateLeaving := leaving }

/-- An access to the ring that concerns one claimant is seen by the call of this one only. -/
theorem view_of_others (others : ∀ k', k' ≠ k → ring.claims k' = s.ring.claims k'
      ∧ ring.entryOf cfg.ring k' = s.ring.entryOf cfg.ring k'
      ∧ ring.leavingOf k' = s.ring.leavingOf k') :
    { s with ring := ring }.view cfg = update (s.view cfg) k.owner ((s.view cfg k.owner).hold
      (ring.claims k) (ring.entryOf cfg.ring k) (ring.leavingOf k) k) := by
  funext c'
  by_cases same : c' = k.owner
  · subst same
    rw [update_self]
    cases k with
    | call c => simp only [State.view, View.hold, Claimant.owner, others (.late c) nofun]
    | late c => simp only [State.view, View.hold, Claimant.owner, others (.call c) nofun]
  · have apart : Claimant.call c' ≠ k ∧ Claimant.late c' ≠ k := by
      constructor <;> rintro rfl <;> exact same rfl
    rw [update_of_ne same]
    simp only [State.view, others _ apart.1, others _ apart.2]

/-- A store that changes the entry of one claimant. -/
theorem view_of_entries {entry : Option QEntry} (entries : ∀ k', ring.entryOf cfg.ring k'
      = if k' = k then entry else s.ring.entryOf cfg.ring k')
    (claims : ring.claims = s.ring.claims) (leavings : ring.leavingOf = s.ring.leavingOf) :
    { s with ring := ring }.view cfg = update (s.view cfg) k.owner
      ((s.view cfg k.owner).hold (s.ring.claims k) entry (s.ring.leavingOf k) k) := by
  rw [← claims, ← leavings, ← (entries k).trans (if_pos rfl)]
  exact view_of_others fun k' other =>
    ⟨congrFun claims k', (entries k').trans (if_neg other), congrFun leavings k'⟩

/-- What the calls see when a ticket leaves. -/
theorem view_leave (next : AmtRing.Inv cfg.ring ring) (looking : ring.drain.looking = true)
    (owner : ring.owner ring.tail = some k) (emitted : Bool) :
    { s with ring := (ring.leave cfg.ring emitted).drainAt .free }.view cfg
      = update ({ s with ring := ring }.view cfg) k.owner
        (({ s with ring := ring }.view cfg k.owner).hold (ring.claims k) none
          (some ⟨ring.tail, some k, ring.writers (ring.tailSlot cfg.ring),
            ring.tailEntry cfg.ring, emitted⟩) k) := by
  have holdings := next.leave_holdings looking owner emitted
  have here := holdings k
  rw [if_pos rfl, if_pos rfl] at here
  rw [← here.1, ← here.2]
  exact view_of_others (s := { s with ring := ring }) fun k' other =>
    ⟨rfl, (holdings k').1.trans (if_neg other), (holdings k').2.trans (if_neg other)⟩

/-- An access to the ring that changes nothing anybody holds. -/
theorem Inv.ofSame (inv : Inv cfg s) (same : AmtRing.SameHoldings s.ring ring)
    (next : AmtRing.Inv cfg.ring ring) (read : ReadWaiting ring) :
    Next cfg s { s with ring := ring } := by
  have view : { s with ring := ring }.view cfg = s.view cfg := by
    funext c
    simp only [State.view, same.claims, AmtRing.entryOf_congr (congrFun same.claims _) same.slots
      same.left, AmtRing.leavingOf_congr (congrFun same.claims _) same.left]
  refine ⟨⟨⟨next, ?_, read, ?_⟩, ?_, inv.running⟩, .inl view⟩
  · intro h below
    rw [same.slots]
    exact inv.ring.noWaiting h (same.left ▸ below)
  · rw [same.scratch]
    exact inv.ring.scratch
  · rw [view]
    exact inv.views

end Views

variable [DecidableEq T]

/-- The accesses of the claimants to the ring: they claim, or store into what they hold. -/
inductive Access (cfg : Config C T) (s : State C T) : AmtRing.State (Claimant C) T → Prop where
  | none : Access cfg s s.ring
  | store {k : Claimant C} (holds : s.holds k) (change : QEntry → QEntry) :
      Access cfg s (s.store cfg k change).ring
  | word {k : Claimant C} (holds : s.holds k) (word : Nat) :
      Access cfg s (s.storeLifecycle k (s.item cfg k) word).ring
  | claim {k : Claimant C} {ring : AmtRing.State (Claimant C) T}
      (taken : edumpiAmtRingClaim cfg.ring cfg.threadOf k s.ring = some ring) : Access cfg s ring

theorem Access.beside {cfg : Config C T} {s : State C T} {ring : AmtRing.State (Claimant C) T}
    (access : Access cfg s ring) : AmtRing.Beside s.ring ring := by
  cases access with
  | claim taken => exact AmtRing.claim_beside taken
  | none | store | word => exact ⟨rfl, rfl, rfl, rfl, rfl, rfl, fun _ _ => rfl⟩

/-- A state that differs from another one in what one call sees. -/
structure Changed (cfg : Config C T) (s : State C T) (c : C) (v : View C T) (t : State C T) :
    Prop where
  view : t.view cfg = update (s.view cfg) c v
  ring : RingOk cfg.ring t.ring
  access : Access cfg s t.ring
  running : t.running = s.running

/-- What a step of a call, its callback or its completion leads to. -/
structure Local (cfg : Config C T) (s : State C T) (c : C) (t : State C T) : Prop where
  inv : Inv cfg t
  move : ∃ v, t.view cfg = update (s.view cfg) c v ∧ Move cfg c (s.view cfg c) v
  access : Access cfg s t.ring

section Changes

variable {cfg : Config C T} {s t u : State C T} {c : C} {v w : View C T}

section Changed

variable (changed : Changed cfg s c v u)

include changed

theorem Changed.here : u.view cfg c = v := by rw [changed.view, update_self]

/-- One change of what a call sees after another. -/
private theorem Changed.after
    (others : ∀ c', c' ≠ c → t.view cfg c' = u.view cfg c') (here : t.view cfg c = w)
    (ring : t.ring = u.ring) (running : t.running = u.running) : Changed cfg s c w t := by
  refine ⟨?_, ring ▸ changed.ring, ring ▸ changed.access, running.trans changed.running⟩
  funext c'
  by_cases same : c' = c
  · rw [same, here, update_self]
  · rw [others c' same, changed.view, update_of_ne same, update_of_ne same]

theorem Changed.callAt (pc : CallPc) : Changed cfg s c { v with call := pc } (u.callAt c pc) := by
  refine changed.after (fun c' other => by simp [State.view, State.callAt, other]) ?_ rfl rfl
  rw [← changed.here]
  simp [State.view, State.callAt]

theorem Changed.callbackAt (pc : CallbackPc) :
    Changed cfg s c { v with callback := pc } (u.callbackAt c pc) := by
  refine changed.after (fun c' other => by simp [State.view, State.callbackAt, other]) ?_ rfl rfl
  rw [← changed.here]
  simp [State.view, State.callbackAt]

theorem Changed.completeAt (pc : CompletePc) :
    Changed cfg s c { v with complete := pc } (u.completeAt c pc) := by
  refine changed.after (fun c' other => by simp [State.view, State.completeAt, other]) ?_ rfl rfl
  rw [← changed.here]
  simp [State.view, State.completeAt]

theorem Changed.setExt (x : ReqExt T) : Changed cfg s c { v with ext := x } (u.setExt c x) := by
  refine changed.after (fun c' other => by simp [State.view, State.setExt, other]) ?_ rfl rfl
  rw [← changed.here]
  simp [State.view, State.setExt]

end Changed

theorem Inv.unchanged (inv : Inv cfg s) : Changed cfg s c (s.view cfg c) s :=
  ⟨(update_eq_self c _).symm, inv.ring, .none, rfl⟩

/-- A step of one call, its callback or its completion. -/
theorem Inv.next (inv : Inv cfg s) (changed : Changed cfg s c v t)
    (move : Move cfg c (s.view cfg c) v)
    (going : v.call.active = true → (s.calls c).active = true := by exact fun active => active) :
    Local cfg s c t :=
  ⟨(inv.nextOf changed.view changed.ring changed.running move going).inv,
    ⟨v, changed.view, move⟩, changed.access⟩

theorem Local.next (step : Local cfg s c t) : Next cfg s t :=
  ⟨step.inv, .inr ⟨c, step.move⟩⟩

/-- A step in which a call returns. -/
theorem Inv.nextReturn (inv : Inv cfg s) (changed : Changed cfg s c v u)
    (move : Move cfg c (s.view cfg c) { v with call := .returned })
    (calls : u.calls = s.calls) (was : (s.calls c).active = true) :
    Local cfg s c (u.return cfg c) := by
  have after := changed.callAt .returned
  refine ⟨⟨changed.ring, inv.views_of_move after.view move, ?_⟩, ⟨_, after.view, move⟩,
    changed.access⟩
  intro c' standing
  have apart : c' ≠ c := by
    rintro rfl
    simp [State.return, State.callAt] at standing
  have before : (s.calls c').active = true := by
    simpa [State.return, State.callAt, apart, calls] using standing
  have elsewhere : cfg.thread c' ≠ cfg.thread c := fun same =>
    apart (inv.same_of_thread before was same)
  simpa [State.return, update_of_ne elsewhere, changed.running] using inv.running c' before

end Changes

section Stores

variable {cfg : Config C T} {s : State C T} {c : C} {k : Claimant C}
  {ring : AmtRing.State (Claimant C) T}

/-- Plain stores of a claimant into its entry are seen by its call only. -/
theorem Inv.storedAt (inv : Inv cfg s) (holds : s.holds k) (change : QEntry → QEntry) :
    Changed cfg s k.owner ((s.view cfg k.owner).hold (s.ring.claims k)
      ((s.ring.entryOf cfg.ring k).map fun e => (change e).withLifecycle e.lifecycle)
      (s.ring.leavingOf k) k) (s.store cfg k change) :=
  ⟨view_of_entries (inv.ring.inv.entryOf_store holds.1 holds.2 cfg.threadOf change) rfl rfl,
    inv.storeRing holds change, .store holds change, rfl⟩

theorem Inv.stored (inv : Inv cfg s) (holds : s.holds (.call c)) (change : QEntry → QEntry) :
    Changed cfg s c { s.view cfg c with entry := (s.view cfg c).stored change }
      (s.store cfg (.call c) change) :=
  inv.storedAt holds change

theorem Inv.lateStored (inv : Inv cfg s) (holds : s.holds (.late c)) (change : QEntry → QEntry) :
    Changed cfg s c { s.view cfg c with lateEntry := (s.view cfg c).lateStored change }
      (s.store cfg (.late c) change) :=
  inv.storedAt holds change

/-- A store of a call into its lifecycle word is seen by this call only. -/
theorem Inv.worded (inv : Inv cfg s) (holds : s.holds (.call c)) {number : Nat}
    (own : number = (s.ring.claims (.call c)).number) (state : LcState) :
    Changed cfg s c { s.view cfg c with entry := (s.view cfg c).worded (edumpiLc number state) }
      (s.storeLifecycle (.call c) (s.item cfg (.call c)) (edumpiLc number state)) :=
  ⟨view_of_entries (inv.ring.inv.entryOf_storeLifecycle holds.1 holds.2 cfg.threadOf _) rfl rfl,
    own ▸ inv.storeLifecycleRing holds state, .word holds _, rfl⟩

/-- A memory access of a claim keeps what holds for the ring. -/
theorem RingOk.claim {thread : Claimant C → T} {next : AmtRing.State (Claimant C) T} (ok : RingOk cfg.ring ring)
    (taken : edumpiAmtRingClaim cfg.ring thread k ring = some next) : RingOk cfg.ring next := by
  refine ⟨ok.inv.claim taken, ok.inv.claim_noneWaiting taken ok.noWaiting, ?_, fun place => ?_⟩
  · intro lc standing
    exact ok.read lc ((AmtRing.claim_beside taken).drain ▸ standing)
  rw [AmtRing.claim_scratch taken]
  split
  · by_cases same : place = thread k
    · subst same
      simp [QEntry.zero, lcTicket]
    · rw [update_of_ne same]
      exact ok.scratch place
  · exact ok.scratch place

/-- A memory access of a claim is seen by the call of its claimant. -/
theorem Inv.claimed (inv : Inv cfg s)
    (taken : edumpiAmtRingClaim cfg.ring cfg.threadOf k s.ring = some ring) :
    Changed cfg s k.owner ((s.view cfg k.owner).hold (ring.claims k) (ring.entryOf cfg.ring k)
      none k) { s with ring := ring } := by
  refine ⟨?_, inv.ring.claim taken, .claim taken, rfl⟩
  rw [← inv.ring.inv.claim_leavingOf taken]
  exact view_of_others fun k' other => inv.ring.inv.claim_others taken other

/-- The claim of a call makes a step. -/
theorem Inv.claimCall (inv : Inv cfg s) (standing : s.calls c = .claiming)
    (taken : edumpiAmtRingClaim cfg.ring cfg.threadOf (.call c) s.ring = some ring) :
    Local cfg s c { s with ring := ring } :=
  inv.next (inv.claimed taken) (.claim standing
    (inv.ring.inv.claim_fresh taken ((inv.views c).fresh standing)))

/-- The claim of a late entry makes a step. -/
theorem Inv.claimLate (inv : Inv cfg s) (standing : s.completes c = .claiming)
    (taken : edumpiAmtRingClaim cfg.ring cfg.threadOf (.late c) s.ring = some ring) :
    Local cfg s c { s with ring := ring } :=
  inv.next (inv.claimed taken) (.lateClaim standing
    (inv.ring.inv.claim_fresh taken ((inv.views c).lateFresh standing)))

end Stores

section Steps

variable {cfg : Config C T} {s t : State C T} {c : C} {now : Timespec}

/-- A callback makes a step. -/
theorem Inv.recvFinished (inv : Inv cfg s)
    (taken : edumpiUcxRecvFinished cfg c s = some t) : Local cfg s c t := by
  unfold edumpiUcxRecvFinished at taken
  dsimp only at taken
  split at taken
  -- The five accesses of the callback; each is one move.
  all_goals rename_i standing
  case h_1 =>
    split at taken <;> cases taken
    rename_i posted
    exact inv.next ((inv.unchanged.setExt _).callbackAt _) (.report standing posted)
  case h_2 =>
    cases taken
    exact inv.next ((inv.unchanged.setExt _).callbackAt _) (.announce standing)
  case h_3 =>
    cases taken
    split
    · rename_i found
      exact inv.next (inv.unchanged.callbackAt _) (.attached standing found)
    · rename_i missing
      exact inv.next (inv.unchanged.callbackAt _)
        (.unattached standing (Option.not_isSome_iff_eq_none.mp missing))
  case h_4 =>
    split at taken <;> cases taken
    · rename_i finished
      exact inv.next (inv.unchanged.callbackAt _) (.callbackSecond standing finished)
    · rename_i free
      exact inv.next (((inv.unchanged.setExt _).completeAt _).callbackAt _)
        (.callbackFirst standing (Bool.eq_false_iff.mpr free))
  case h_5 => cases taken

/-- A call that is no receive makes a step. -/
theorem Inv.otherCall (inv : Inv cfg s) {stores : List (QEntry → QEntry)}
    (taken : otherCall cfg c stores s = some t) : Local cfg s c t := by
  unfold Ucx.otherCall at taken
  split at taken
  case h_1 made standing =>
    have going : (s.calls c).active = true := by simp [standing]
    have holds : s.holds (.call c) :=
      inv.holds_call (by simp [standing]) (by simp [standing]) (by simp [standing])
    split at taken <;> cases taken
    · exact inv.next ((inv.stored holds _).callAt _) (.store standing _) fun _ => going
    · exact inv.nextReturn inv.unchanged (.stop standing) rfl going
  case h_2 => cases taken

/-- A receive makes a step. -/
theorem Inv.mpiIrecv (inv : Inv cfg s) {args : IrecvArgs} (receive : cfg.call c = .irecv args)
    (taken : mpiIrecv cfg c args now s = some t) : Local cfg s c t := by
  unfold Ucx.mpiIrecv at taken
  dsimp only at taken
  split at taken
  case h_14 => cases taken
  all_goals
    rename_i standing
    -- Every access of a running call goes to its own entry or to its request.
    have going : (s.calls c).active = true := by simp [standing]
    have holds : s.holds (.call c) :=
      inv.holds_call (by simp [standing]) (by simp [standing]) (by simp [standing])
    have next {v : View C T} {t : State C T} (changed : Changed cfg s c v t)
        (move : Move cfg c (s.view cfg c) v) := inv.next changed move fun _ => going
  case h_1 =>
    cases taken
    exact next ((inv.stored holds _).callAt _) (.fill standing now)
  case h_2 =>
    split at taken <;> cases taken
    · rename_i null
      exact next (inv.unchanged.callAt _) (.unmarked receive standing null)
    · exact next ((inv.stored holds _).callAt _) (.mark standing)
  case h_3 =>
    split at taken <;> cases taken
    · exact inv.nextReturn inv.unchanged (.reject standing) rfl going
    · rename_i passed
      exact next (inv.unchanged.callAt _) (.accept receive standing fun null => passed (.inr null))
  case h_4 =>
    split at taken <;> cases taken
    · exact next ((inv.stored holds _).callAt _) (.fail standing)
    · exact next (((inv.stored holds _).setExt _).callAt _) (.post receive standing)
  case h_5 =>
    cases taken
    exact next ((inv.stored holds _).callAt _) (.clearPending standing)
  case h_6 =>
    cases taken
    exact next ((inv.unchanged.setExt _).callAt _)
      (.snapshot standing ⟨rfl, rfl, rfl, rfl, rfl⟩ (inv.number_of_snapshot standing))
  case h_7 =>
    cases taken
    have ok := inv.views c
    -- The word carries the number that the snapshot took from the entry.
    have number : (s.ext c).ticket = (s.ring.claims (.call c)).number :=
      ok.ticket (ok.attaching (by simp [standing])) (by simp [standing])
    exact next ((inv.worded holds number .pending).callAt _) (.arm standing)
  case h_8 =>
    cases taken
    exact next ((inv.unchanged.setExt _).callAt _) (.publish standing)
  case h_9 =>
    cases taken
    split
    · rename_i called
      exact next (inv.unchanged.callAt _) (.seen standing called)
    · rename_i waits
      exact next (inv.unchanged.callAt _) (.unseen standing (Bool.eq_false_iff.mpr waits))
  case h_10 =>
    split at taken <;> cases taken
    · rename_i finished
      exact next (inv.unchanged.callAt _) (.second standing finished)
    · rename_i free
      exact next (((inv.unchanged.setExt _).completeAt _).callAt _)
        (.first standing (Bool.eq_false_iff.mpr free))
  case h_11 =>
    split at taken <;> cases taken
    rename_i isOver
    exact next (inv.unchanged.callAt _) (.completed standing isOver)
  case h_12 =>
    cases taken
    exact next ((inv.stored holds _).callAt _) (.stampSec standing now)
  case h_13 =>
    cases taken
    exact inv.nextReturn (inv.stored holds _) (.stampNsec standing) rfl going

/-- A completion makes a step. -/
theorem Inv.completeEntry (inv : Inv cfg s)
    (taken : edumpiUcxCompleteEntry cfg c now s = some t) : Local cfg s c t := by
  unfold edumpiUcxCompleteEntry at taken
  dsimp only at taken
  split at taken
  case h_12 => cases taken
  case h_1 q standing pointer =>
    -- The pointer is the one that the call has published.
    obtain ⟨attached, _, answered, number⟩ :=
      inv.attached (by simp [standing] : s.completes c ≠ .none)
    rw [pointer, Option.some.injEq] at attached
    subst attached
    split at taken <;> cases taken
    · rename_i word
      -- The exchange succeeds only on the word of this very receive.
      have here := inv.here_of_word answered (number ▸ word)
      exact inv.next ((inv.worded ⟨answered, here⟩ number .finishing).completeAt _)
        (.takeOver standing here)
    · rename_i word
      obtain ⟨empty, gone⟩ := inv.gone_of_word (by simp [standing])
        (by simp [standing]) (number ▸ word)
      exact inv.next (inv.unchanged.completeAt _) (.giveUp standing gone empty)
  -- The late claim runs the ring's own code.
  case h_8 standing =>
    split at taken <;> cases taken
    · rename_i ring claimed
      exact inv.claimLate standing claimed
    · rename_i claimed
      exact inv.next (inv.unchanged.completeAt _)
        (.lateAnswer standing (AmtRing.claim_answers.mp claimed) fun _ => not_scratch_of_held)
  all_goals rename_i standing
  -- The completion fills the entry of its call.
  case h_2 | h_3 | h_4 | h_5 | h_6 | h_7 =>
    have holds : s.holds (.call c) := inv.holds_filling (by simp [standing])
    cases taken
    refine inv.next ((inv.stored holds _).completeAt _) ?_
    first
    | exact .partner standing
    | exact .endSec standing now
    | exact .endNsec standing
    | exact .copyStart standing
    | exact .size standing
    | exact .done standing
  -- The completion fills a late entry.
  case h_9 | h_10 | h_11 =>
    have holds : s.holds (.late c) :=
      inv.holds_late (by simp [standing]) (by simp [standing])
    cases taken
    refine inv.next ((inv.lateStored holds _).completeAt _) ?_
    first
    | exact .lateFill standing now
    | exact .lateNsec standing
    | exact .lateSec standing

end Steps

section Drain

variable {cfg : Config C T} {s : State C T} {ring : AmtRing.State (Claimant C) T}

omit [DecidableEq T] in
/-- The oldest entry is handed over. -/
theorem Inv.emit (inv : Inv cfg s) (standing : s.ring.drain = .emit)
    (settled : ∀ k, s.ring.owner s.ring.tail = some k → s.settled k)
    (next : AmtRing.Inv cfg.ring ((s.ring.leave cfg.ring true).drainAt .free))
    (read : ReadWaiting ((s.ring.leave cfg.ring true).drainAt .free)) :
    Next cfg s { s with ring := (s.ring.leave cfg.ring true).drainAt .free } := by
  have looking : s.ring.drain.looking = true := by rw [standing]; rfl
  obtain ⟨k, owner, claim, held⟩ := inv.ring.inv.tail_owner looking
  have word := inv.tail_word claim held
  have idle := settled k owner
  have length := inv.ring.inv.left_of_looking looking
  -- The emitted entry belongs to a call that has returned or to a late completion.
  cases k with
  | call c =>
    have isOver := inv.handsOver_of_settled idle held
    have word := word (by rw [idle.1]; simp)
    refine inv.nextOf (view_leave inv.ring.inv looking owner true)
      ⟨next, ?_, read, inv.ring.scratch⟩ rfl
      (.leave idle.1 isOver.symm idle.2.2 fun _ => held) fun active => active
    refine inv.ring.noWaiting.leave length ?_ true
    intro same
    cases phase : s.phase c <;> simp_all
  | late c =>
    refine inv.nextOf (view_leave inv.ring.inv looking owner true)
      ⟨next, ?_, read, inv.ring.scratch⟩ rfl
      (.lateLeave (show s.completes c = .wrote from idle) rfl held) fun active => active
    refine inv.ring.noWaiting.leave length ?_ true
    rw [word]
    simp

/-- The oldest entry is given up: only one that waits can be. -/
theorem Inv.abandon (inv : Inv cfg s) {lc : Nat} (standing : s.ring.drain = .abandonExchange lc)
    (same : (s.ring.tailEntry cfg.ring).lifecycle = lc)
    (returned : ∀ k, s.ring.owner s.ring.tail = some k → s.returned k)
    (given : ring = s.ring.assign (.slot (s.ring.tailSlot cfg.ring))
      ((s.ring.tailEntry cfg.ring).withLifecycle (edumpiLc (lcTicket lc) .abandoned)))
    (next : AmtRing.Inv cfg.ring ((ring.leave cfg.ring false).drainAt .free))
    (read : ReadWaiting ((ring.leave cfg.ring false).drainAt .free)) :
    Next cfg s { s with ring := (ring.leave cfg.ring false).drainAt .free } := by
  have looking : s.ring.drain.looking = true := by rw [standing]; rfl
  obtain ⟨k, owner, claim, held⟩ := inv.ring.inv.tail_owner looking
  have word := inv.tail_word claim held
  have idle := returned k owner
  have pending := inv.ring.read lc standing
  have length := inv.ring.inv.left_of_looking looking
  cases k with
  | late c =>
    -- No receive ever waits on a late entry.
    rw [same] at word
    rw [word, lcState_edumpiLc] at pending
    cases pending
  | call c =>
    have word := word (by rw [show s.calls c = .returned from idle]; simp)
    have waiting : s.phase c = .waiting := by
      rw [← same, word, lcState_edumpiLc] at pending
      cases phase : s.phase c <;> simp_all
    have number : lcTicket lc = s.ring.tail + 1 := by rw [← same, word, lcTicket_edumpiLc]
    have ticket : (s.ring.claims (.call c)).ticket = some s.ring.tail := by rw [claim]; rfl
    have entries := inv.ring.inv.entryOf_assign_slot ticket (Nat.le_of_eq length)
    -- The exchange of the word is seen by the call that is being given up.
    have view : { s with ring := ring }.view cfg = update (s.view cfg) c
        { s.view cfg c with
          entry := some ((s.ring.tailEntry cfg.ring).withLifecycle
            (edumpiLc (lcTicket lc) .abandoned)) } := by
      subst given
      exact view_of_entries (entries _) rfl rfl
    -- Giving up writes the word and then lets the entry leave, both in one step here.
    have assigned : AmtRing.Inv cfg.ring ring := given ▸ inv.ring.inv.assign _ _
    have move : Move cfg c (s.view cfg c) { s.view cfg c with
        entry := none
        leaving := some ⟨ring.tail, some (.call c), ring.writers (ring.tailSlot cfg.ring),
          ring.tailEntry cfg.ring, false⟩ } := by
      refine .leave (show s.calls c = .returned from idle) ?_ ?_ (by simp) <;>
        simp [show (s.view cfg c).phase = .waiting from waiting]
    refine inv.nextOf ?_ ⟨next, ?_, read, ?_⟩ rfl move fun active => active
    · subst given
      refine (view_leave assigned looking owner false).trans ?_
      rw [view]
      refine (update_idem ..).trans ?_
      rw [Claimant.owner, update_self]
      rfl
    · refine NoneWaiting.leave ?_ (by rw [given]; exact length) ?_ false
      · rw [given]
        exact inv.ring.noWaiting.assign_slot (Nat.le_of_eq length) (.inr (by simp [number]))
      · rw [given]
        simp [AmtRing.State.tailEntry, AmtRing.State.tailSlot, AmtRing.State.assign]
    · rw [given]
      exact inv.ring.scratch

/-- The consumer makes a step, and gives no slot back too early. -/
theorem Inv.drain (inv : Inv cfg s) {clock : Int} (inTime : InTime cfg s (.drain clock))
    (taken : edumpiAmtRingDrain cfg.ring clock s.ring = some ring) :
    Next cfg s { s with ring := ring } := by
  have next := inv.ring.inv.drain taken
  have read := ReadWaiting.drain taken
  obtain same | ⟨standing, rfl⟩ | ⟨lc, standing, same, rfl⟩ := AmtRing.drain_cases taken
  · exact inv.ofSame same next read
  · simp only [InTime, standing] at inTime
    exact inv.emit standing inTime next read
  · simp only [InTime, standing] at inTime
    exact inv.abandon standing same (inTime same) rfl next read

end Drain

section Run

variable {cfg : Config C T}

/-- A call makes a step. -/
theorem Inv.stepCall {s t : State C T} (inv : Inv cfg s) {c : C} {now : Timespec}
    (taken : stepCall cfg c now s = some t) : Local cfg s c t := by
  unfold Ucx.stepCall at taken
  split at taken
  -- A call begins on a thread that runs no other one.
  case h_1 standing =>
    split at taken
    · rename_i free
      cases taken
      have ok := inv.views c
      have unborn : s.ring.claims (.call c) = .unborn := ok.unborn standing
      have view := (inv.unchanged.callAt (c := c) .claiming).view
      have move : Move cfg c (s.view cfg c) { s.view cfg c with call := .claiming } :=
        .begin standing (AmtRing.entryOf_of_none (by rw [unborn]; rfl))
      refine ⟨⟨inv.ring, inv.views_of_move view move, ?_⟩, ⟨_, view, move⟩, .none⟩
      intro c' active
      by_cases same : c' = c
      · subst same
        simp
      have before : (s.calls c').active = true := by
        simpa [State.callAt, same] using active
      have here := inv.running c' before
      -- The thread was free, so the other call is on another one.
      have elsewhere : cfg.thread c' ≠ cfg.thread c := by
        intro thread
        rw [thread, free] at here
        cases here
      simpa [update_of_ne elsewhere] using here
    · cases taken
  case h_2 standing =>
    split at taken
    · rename_i ring claimed
      cases taken
      exact inv.claimCall standing claimed
    all_goals
      rename_i claimed _
      cases taken
      exact inv.next (inv.unchanged.callAt _)
        (.answer standing (AmtRing.claim_answers.mp claimed) (fun _ => not_scratch_of_held)
          (by simp)) fun _ => by simp [standing]
  case h_3 =>
    split at taken
    · rename_i receive
      exact inv.mpiIrecv receive taken
    · exact inv.otherCall taken

/-- Every memory access moves one call at most, as long as no slot is given back too early. -/
theorem next_step (s : State C T) (a : Action C) (t : State C T) (inv : Inv cfg s)
    (inTime : InTime cfg s a) (taken : step cfg s a = some t) : Next cfg s t := by
  cases a with
  | call c now => exact (inv.stepCall taken).next
  | callback c => exact (inv.recvFinished taken).next
  | complete c now => exact (inv.completeEntry taken).next
  | drainCall force max =>
    obtain ⟨ring, moved, rfl⟩ := Option.map_eq_some_iff.mp taken
    have next := AmtRing.inv_step _ _ _ inv.ring.inv moved
    obtain ⟨-, rfl⟩ := AmtRing.step_drainCall_eq_some.mp moved
    refine inv.ofSame ⟨rfl, rfl, rfl, rfl, rfl, rfl⟩ next ?_
    intro lc standing
    cases standing
  | drain clock =>
    obtain ⟨ring, moved, rfl⟩ := Option.map_eq_some_iff.mp taken
    exact inv.drain inTime moved

theorem inv_step (s : State C T) (a : Action C) (t : State C T) (inv : Inv cfg s)
    (inTime : InTime cfg s a) (taken : step cfg s a = some t) : Inv cfg t :=
  (next_step s a t inv inTime taken).inv

end Run

end EduMpi.Ucx
