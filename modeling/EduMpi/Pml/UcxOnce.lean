import EduMpi.Pml.UcxData
import EduMpi.Pml.UcxRows

/-! A receive is handed over once, with the size its callback has reported. -/

namespace EduMpi.Ucx

open Machine
open AmtRing (DrainPc Leaving edumpiAmtRingDrain)
open List (replicate)

variable {C T : Type}

/-- The entry of the call is stamped, or its completion has taken it over. -/
def View.ended (v : View C T) : Prop :=
  v.call.past = true ∨ v.phase = .filling ∨ v.phase = .filled

/-- No receive waits on the entry, and none will. -/
def View.calm (v : View C T) : Prop :=
  (v.ext.posted = false ∧ v.call.past = true) ∨ v.phase = .filling ∨ v.phase = .filled

section Stable

variable {cfg : Config C T} {c : C} {v w : View C T}

/-- A call that is past its stamp stays there. -/
theorem Move.past (move : Move cfg c v w) (past : v.call.past = true) : w.call.past = true := by
  cases move with
  | begin standing | answer standing | fill standing | unmarked _ standing | mark standing
  | accept _ standing | fail standing | post _ standing | clearPending standing
  | snapshot standing | arm standing | publish standing | unseen standing | seen standing
  | second standing | first standing | completed standing =>
    rw [standing] at past
    cases past
  | store | stop | reject | stampSec | stampNsec => rfl
  | _ => exact past

section

variable (ok : v.Ok (cfg.place c) (cfg.status c)) (move : Move cfg c v w)

include ok move

/-- An entry that was taken over is filled in, and nothing else happens to it. -/
theorem Move.takenOver (taken : v.phase = .filling ∨ v.phase = .filled) :
    w.phase = .filling ∨ w.phase = .filled := by
  have after := move.ok ok
  -- A completion is at work, or has done its work.
  have working : v.complete.phase = v.phase ∧ v.armed = true := by
    unfold View.phase at taken ⊢
    split at taken
    · rename_i armed
      exact ⟨by rw [if_pos armed], armed⟩
    · simp at taken
  rw [← working.1] at taken
  have begun : v.complete ≠ .none := by
    intro none
    simp [none] at taken
  cases move with
  | partner | endSec | endNsec | copyStart | size | done =>
    rw [after.phase_of_begun (by simp)]
    simp
  | first standing free | callbackFirst standing free => exact absurd (ok.none_of_free free) begun
  | takeOver standing | giveUp standing | lateAnswer standing | lateFill standing
  | lateNsec standing | lateSec standing | lateClaim standing =>
    rw [standing] at taken
    simp at taken
  | _ =>
    rw [after.phase_of_begun begun]
    exact taken

theorem Move.ended (ended : v.ended) : w.ended :=
  ended.imp move.past (move.takenOver ok)

/-- Whatever happens, no receive will wait on a calm entry. -/
theorem Move.calm (calm : v.calm) : w.calm := by
  refine calm.imp (fun ⟨unposted, past⟩ => ⟨?_, move.past past⟩) (move.takenOver ok)
  cases move with
  | post _ standing =>
    rw [standing] at past
    cases past
  | snapshot standing same => exact same.2.2.2.2.trans unposted
  | _ => exact unposted

end

/-- A calm entry is not waited for. -/
theorem View.not_waiting_of_calm (calm : v.calm) : v.phase ≠ .waiting := by
  rcases calm with ⟨unposted, _⟩ | phase | phase
  · simp [View.phase_of_unposted unposted]
  · simp [phase]
  · simp [phase]

/-- An entry that is stamped, still in the ring and not waited for is calm. -/
theorem View.calm_of_ended (ended : v.ended) (still : v.phase ≠ .waiting) (here : v.phase ≠ .lost) :
    v.calm := by
  rcases ended with past | taken
  · cases phase : v.phase with
    | unarmed =>
      left
      refine ⟨?_, past⟩
      -- A call past its stamp is past its snapshot, so a posted receive would be waited for.
      by_contra posted
      have armed : v.armed = true := by
        cases call : v.call <;> simp_all [View.armed]
      simp only [View.phase, armed] at phase
      cases complete : v.complete <;> simp [complete] at phase
    | waiting => exact absurd phase still
    | filling => exact .inr (.inl phase)
    | filled => exact .inr (.inr phase)
    | lost => exact absurd phase here
  · exact .inr taken

end Stable

/-- What the entries of all calls say. -/
structure Records (cfg : Config C T) (s : State C T) : Prop where
  handshake : ∀ c, (s.view cfg c).Handshake
  unstamped : ∀ c, (s.view cfg c).Unstamped
  marked : ∀ c, (s.view cfg c).Marked cfg c
  filled : ∀ c, (s.view cfg c).Filled cfg c
  late : ∀ c, (s.view cfg c).LateFilled cfg c

/-- The oldest ticket is the one of a receive. -/
def State.tailReceive (cfg : Config C T) (s : State C T) (c : C) : Prop :=
  s.ring.owner s.ring.tail = some (.call c) ∧ ∃ args, cfg.call c = .irecv args

/-- What the consumer knows about a receive at the tail from what it has read so far. -/
def ObservedAt (cfg : Config C T) (s : State C T) : DrainPc → Prop
  | .pending | .done | .age | .ageSec _ | .ageNsec _ _ | .finishing | .abandonLoad =>
    ∀ c, s.tailReceive cfg c → (s.view cfg c).ended
  | .abandonExchange lc =>
    ∀ c, s.tailReceive cfg c → (s.view cfg c).ended ∧ lc = edumpiLc (s.ring.tail + 1) .pending
  | .emit => ∀ c, s.tailReceive cfg c → (s.view cfg c).calm
  | _ => True

/-- What the consumer knows where it stands; it was never forced. -/
structure Observed (cfg : Config C T) (s : State C T) : Prop where
  known : ObservedAt cfg s s.ring.drain
  unforced : s.ring.force = false

/-- The stall timeout of the oldest entry expires when the consumer reads this clock. -/
def State.expires (cfg : Config C T) (s : State C T) (clock : Int) : Prop :=
  s.ring.stalled = true ∧ cfg.ring.stallNs ≤ clock - s.ring.stallSince

/-- A receive call has returned. -/
def State.back (cfg : Config C T) (s : State C T) : Claimant C → Prop
  | .call c => match cfg.call c with
    | .irecv _ => s.calls c = .returned
    | .other _ => True
  | .late _ => True

/-- The claimant has posted no receive. -/
def State.unposted (s : State C T) : Claimant C → Prop
  | .call c => (s.ext c).posted = false
  | .late _ => True

/-- The claimant has returned, and its completion is not about to fill the entry. -/
def State.quiet (s : State C T) : Claimant C → Prop
  | .call c => s.calls c = .returned ∧ s.phase c ≠ .filling
  | .late c => s.completes c = .wrote

/-- The consumer is not forced, and every receive call returns before the stall timeout. -/
def Patient (cfg : Config C T) (s : State C T) : Action C → Prop
  | .drainCall force _ => force = false
  | .drain clock => s.ring.drain = .stall → s.expires cfg clock →
      ∀ k ∈ s.ring.owner s.ring.tail, s.back cfg k
  | _ => True

/-- No completion and no call comes between the last check of the consumer and what it does. -/
def SteadyAt (cfg : Config C T) (s : State C T) (clock : Int) : DrainPc → Prop
  | .stall => s.expires cfg clock → ∀ k ∈ s.ring.owner s.ring.tail, s.unposted k
  | .abandonExchange lc => (s.ring.tailEntry cfg.ring).lifecycle = lc →
      ∀ k ∈ s.ring.owner s.ring.tail, s.returned k
  | .emit => ∀ k ∈ s.ring.owner s.ring.tail, s.quiet k
  | _ => True

/-- The same for a step of the system. -/
def Steady (cfg : Config C T) (s : State C T) : Action C → Prop
  | .drain clock => SteadyAt cfg s clock s.ring.drain
  | _ => True

instance (cfg : Config C T) (s : State C T) (clock : Int) : Decidable (s.expires cfg clock) :=
  inferInstanceAs (Decidable (s.ring.stalled = true ∧ cfg.ring.stallNs ≤ clock - s.ring.stallSince))

instance (cfg : Config C T) (s : State C T) : DecidablePred (s.back cfg)
  | .call c =>
    match call : cfg.call c with
    | .irecv _ => decidable_of_iff (s.calls c = .returned) (by simp [State.back, call])
    | .other _ => isTrue (by simp [State.back, call])
  | .late _ => isTrue trivial

instance (s : State C T) : DecidablePred s.unposted
  | .call c => inferInstanceAs (Decidable ((s.ext c).posted = false))
  | .late _ => isTrue trivial

instance (s : State C T) : DecidablePred s.quiet
  | .call c => inferInstanceAs (Decidable (s.calls c = .returned ∧ s.phase c ≠ .filling))
  | .late c => inferInstanceAs (Decidable (s.completes c = .wrote))

instance (cfg : Config C T) (s : State C T) : DecidablePred (Patient cfg s)
  | .drainCall force _ => inferInstanceAs (Decidable (force = false))
  | .drain clock => inferInstanceAs (Decidable (s.ring.drain = .stall → s.expires cfg clock →
      ∀ k ∈ s.ring.owner s.ring.tail, s.back cfg k))
  | .call _ _ | .callback _ | .complete _ _ => isTrue trivial

instance (cfg : Config C T) (s : State C T) (clock : Int) : DecidablePred (SteadyAt cfg s clock)
  | .stall => inferInstanceAs (Decidable (s.expires cfg clock →
      ∀ k ∈ s.ring.owner s.ring.tail, s.unposted k))
  | .abandonExchange lc => inferInstanceAs (Decidable
      ((s.ring.tailEntry cfg.ring).lifecycle = lc → ∀ k ∈ s.ring.owner s.ring.tail, s.returned k))
  | .emit => inferInstanceAs (Decidable (∀ k ∈ s.ring.owner s.ring.tail, s.quiet k))
  | .idle | .top | .loadState | .endSec | .endNsec | .pending | .done | .age | .ageSec _
  | .ageNsec _ _ | .finishing | .abandonLoad | .free | .advance => isTrue trivial

instance (cfg : Config C T) (s : State C T) : DecidablePred (Steady cfg s)
  | .drain clock => inferInstanceAs (Decidable (SteadyAt cfg s clock s.ring.drain))
  | .call _ _ | .callback _ | .complete _ _ | .drainCall _ _ => isTrue trivial

section Steps

variable {cfg : Config C T} {s t : State C T} {c : C}

/-- What every move of a call keeps holds for all calls after a step. -/
theorem Moved.keeps [DecidableEq C] {P : C → View C T → Prop} (moved : Moved cfg s t)
    (before : ∀ c, P c (s.view cfg c))
    (keeps : ∀ c v, Move cfg c (s.view cfg c) v → P c v) (c : C) : P c (t.view cfg c) := by
  rcases moved with same | ⟨c', v, view, move⟩
  · rw [same]
    exact before c
  rw [view]
  by_cases same : c = c'
  · subst same
    rw [Function.update_self]
    exact keeps c v move
  · rw [Function.update_of_ne same]
    exact before c

theorem Records.moved [DecidableEq C] (records : Records cfg s) (inv : Inv cfg s) (moved : Moved cfg s t) :
    Records cfg t where
  handshake := moved.keeps (P := fun _ v => v.Handshake) records.handshake
    fun c _ move => move.handshake (inv.views c) (records.handshake c)
  unstamped := moved.keeps (P := fun _ v => v.Unstamped) records.unstamped
    fun c _ move => move.unstamped (inv.views c) (records.unstamped c)
  marked := moved.keeps (P := fun c v => v.Marked cfg c) records.marked
    fun c _ move => move.marked (inv.views c) (records.marked c)
  filled := moved.keeps (P := fun c v => v.Filled cfg c) records.filled
    fun c _ move => move.filled (inv.views c) (records.filled c)
  late := moved.keeps (P := fun c v => v.LateFilled cfg c) records.late
    fun c _ move => move.lateFilled (inv.views c) (records.late c)

theorem records_initial : Records cfg (initial : State C T) where
  handshake := fun _ => ⟨by simp [initial, edumpiUcxReqExtReset],
    by simp [initial], by simp [initial]⟩
  unstamped := fun _ _ _ _ _ held => by cases held
  marked := fun _ => ⟨by simp [initial, edumpiUcxReqExtReset],
    by simp [initial], by simp [initial, edumpiUcxReqExtReset]⟩
  filled := fun _ => ⟨fun _ _ _ _ held => (by cases held), by simp [initial],
    by simp [initial], fun _ gone => (by cases gone)⟩
  late := fun _ => ⟨by simp [initial], by simp [initial], fun _ gone => (by cases gone)⟩

/-- What the consumer knows stays true while the others make steps. -/
theorem Observed.beside [DecidableEq C] [DecidableEq T] (observed : Observed cfg s) (inv : Inv cfg s) (next : Local cfg s c t) :
    Observed cfg t := by
  refine ⟨?_, next.access.beside.force.trans observed.unforced⟩
  have known := observed.known
  rw [next.access.beside.drain]
  -- The owner of the oldest ticket is the same.
  have before : s.ring.drain.looking = true → ∀ c, t.tailReceive cfg c → s.tailReceive cfg c := by
    intro looking c receive
    have below := inv.ring.inv.slots.occupied_of_looking looking
    refine ⟨?_, receive.2⟩
    rw [← next.access.beside.owner _ below, ← next.access.beside.tail]
    exact receive.1
  have ended : ∀ c, (s.view cfg c).ended → (t.view cfg c).ended := by
    exact next.next.moved.keeps (P := fun c v => (s.view cfg c).ended → v.ended) (fun _ ended => ended)
      fun c _ move => move.ended (inv.views c)
  have calm : ∀ c, (s.view cfg c).calm → (t.view cfg c).calm := by
    exact next.next.moved.keeps (P := fun c v => (s.view cfg c).calm → v.calm) (fun _ calm => calm)
      fun c _ move => move.calm (inv.views c)
  -- By the place of the consumer: what it has found out about the oldest entry still holds.
  cases standing : s.ring.drain with
  | pending | done | age | ageSec | ageNsec | finishing | abandonLoad =>
    rw [standing] at known before
    exact fun c receive => ended c (known c (before rfl c receive))
  | abandonExchange lc =>
    rw [standing] at known before
    intro c receive
    have past := known c (before rfl c receive)
    rw [next.access.beside.tail]
    exact ⟨ended c past.1, past.2⟩
  | emit =>
    rw [standing] at known before
    exact fun c receive => calm c (known c (before rfl c receive))
  | _ => trivial

/-- The entry of a receive at the tail, with what holds for it there. -/
theorem Inv.tailEntry (inv : Inv cfg s) (looking : s.ring.drain.looking = true)
    (receive : s.tailReceive cfg c) :
    s.ring.entryOf cfg.ring (.call c) = some (s.ring.tailEntry cfg.ring)
    ∧ s.ring.claims (.call c) = .slot s.ring.tail ∧ (s.view cfg c).phase ≠ .lost := by
  obtain ⟨k, owner, claim, held⟩ := inv.ring.inv.tail_owner looking
  rw [receive.1, Option.some.injEq] at owner
  subst owner
  refine ⟨held, claim, fun lost => ?_⟩
  rcases (inv.views c).lost lost with dropped | gone
  · exact not_scratch_of_held held dropped
  · rw [show (s.view cfg c).leaving = none from AmtRing.leavingOf_eq_none_of_entryOf held] at gone
    cases gone

/-- A receive whose entry has an end is stamped by its call or its completion. -/
theorem Records.ended_of_end (records : Records cfg s) (inv : Inv cfg s)
    (looking : s.ring.drain.looking = true) (receive : s.tailReceive cfg c)
    (stamped : (s.ring.tailEntry cfg.ring).endTime ≠ ⟨0, 0⟩) : (s.view cfg c).ended := by
  obtain ⟨held, claim, here⟩ := inv.tailEntry looking receive
  have ok := inv.views c
  by_cases past : (s.view cfg c).call.past = true
  · exact .inl past
  have claimed : (s.view cfg c).call ≠ .claiming := by
    intro claiming
    -- A call that has not got on from its claim has a zero entry.
    rw [eq_of_fresh_slot (ok.fresh claiming _ held) claim] at stamped
    exact stamped rfl
  cases phase : (s.view cfg c).phase with
  | filling => exact .inr (.inl phase)
  | filled => exact .inr (.inr phase)
  | lost => exact absurd phase here
  | unarmed | waiting =>
    refine absurd (records.unstamped c (by simpa using past) claimed ?_ _ held) stamped
    simp [phase]

/-- A receive waits only when it is posted, behind the claim of its call. -/
theorem Inv.posted_of_waiting (inv : Inv cfg s) (waiting : (s.view cfg c).phase = .waiting) :
    (s.view cfg c).ext.posted = true ∧ (s.view cfg c).call ≠ .claiming := by
  have posted : (s.view cfg c).ext.posted = true := by
    by_contra unposted
    rw [View.phase_of_unposted (by simpa using unposted)] at waiting
    cases waiting
  exact ⟨posted, ((inv.views c).claimed_of_posted posted).2⟩

section

variable (records : Records cfg s) (inv : Inv cfg s) (looking : s.ring.drain.looking = true)
  (receive : s.tailReceive cfg c)

include records inv looking receive

/-- A receive without the mark of a pending request is not posted. -/
theorem Records.calm_of_unmarked (ended : (s.view cfg c).ended)
    (unmarked : (s.ring.tailEntry cfg.ring).pendingRequest = 0) :
    (s.view cfg c).calm := by
  obtain ⟨held, _, here⟩ := inv.tailEntry looking receive
  refine View.calm_of_ended ended (fun waiting => ?_) here
  have marked := (records.marked c).marked (.inr (inv.posted_of_waiting waiting).1) _ held
  rw [unmarked] at marked
  cases marked

/-- A request is done only when its entry is filled in. -/
theorem Records.calm_of_done (ended : (s.view cfg c).ended)
    (done : (s.ring.tailEntry cfg.ring).requestDone ≠ 0) :
    (s.view cfg c).calm := by
  obtain ⟨held, _, here⟩ := inv.tailEntry looking receive
  refine View.calm_of_ended ended (fun waiting => done ?_) here
  obtain ⟨posted, claimed⟩ := inv.posted_of_waiting waiting
  exact (records.filled c).undone (.inr posted) claimed (by simp [waiting]) _ held

end

section

variable (inv : Inv cfg s) (looking : s.ring.drain.looking = true) (receive : s.tailReceive cfg c)

include inv looking receive

/-- The lifecycle word of a receive at the tail carries the ticket of the tail. -/
theorem Inv.word_of_pending (pending : lcState (s.ring.tailEntry cfg.ring).lifecycle = .pending) :
    (s.ring.tailEntry cfg.ring).lifecycle = edumpiLc (s.ring.tail + 1) .pending := by
  obtain ⟨held, claim, _⟩ := inv.tailEntry looking receive
  by_cases claiming : s.calls c = .claiming
  · -- Behind the claim, the word says that nothing waits.
    rw [eq_of_fresh_slot ((inv.views c).fresh claiming _ held) claim,
      QEntry.withLifecycle_lifecycle, lcState_edumpiLc] at pending
    cases pending
  · have word := inv.tail_word claim held claiming
    rw [word, lcState_edumpiLc] at pending
    rw [word, pending]

/-- A receive that does not wait, seen after its stamp, is calm. -/
theorem Inv.calm_of_word (ended : (s.view cfg c).ended)
    (word : (s.ring.tailEntry cfg.ring).lifecycle ≠ edumpiLc (s.ring.tail + 1) .pending) :
    (s.view cfg c).calm := by
  obtain ⟨held, claim, here⟩ := inv.tailEntry looking receive
  refine View.calm_of_ended ended (fun waiting => word ?_) here
  have same := inv.tail_word claim held (inv.posted_of_waiting waiting).2
  rwa [show s.phase c = .waiting from waiting] at same

end

/-- The consumer learns from what it reads. -/
theorem Observed.drain [DecidableEq T] (observed : Observed cfg s) (inv : Inv cfg s) (records : Records cfg s)
    {clock : Int} (patient : Patient cfg s (.drain clock)) (steady : Steady cfg s (.drain clock))
    {ring : AmtRing.State (Claimant C) T}
    (taken : edumpiAmtRingDrain cfg.ring clock s.ring = some ring) :
    Observed cfg { s with ring := ring } := by
  have known := observed.known
  have unforced := observed.unforced
  unfold edumpiAmtRingDrain at taken
  dsimp only at taken
  split at taken
  all_goals try rename_i standing
  all_goals try have looking : s.ring.drain.looking = true := by rw [standing]; rfl
  case h_1 => cases taken
  case h_2 | h_3 =>
    cases taken
    refine ⟨?_, unforced⟩
    split <;> trivial
  -- An end stamp is the call's own, or that of its completion.
  case h_4 | h_5 =>
    cases taken
    refine ⟨?_, unforced⟩
    simp only [unforced, Bool.false_eq_true, if_false]
    split
    · trivial
    · rename_i stamped
      intro c receive
      exact records.ended_of_end inv looking receive fun zero => stamped (by rw [zero])
  case h_6 =>
    rw [standing] at known
    cases taken
    refine ⟨?_, unforced⟩
    split
    · rename_i unmarked
      exact fun c receive => records.calm_of_unmarked inv looking receive (known c receive) unmarked
    · exact known
  case h_7 =>
    rw [standing] at known
    cases taken
    refine ⟨?_, unforced⟩
    split
    · exact known
    · rename_i done
      exact fun c receive => records.calm_of_done inv looking receive (known c receive) done
  case h_8 | h_9 =>
    rw [standing] at known
    cases taken
    exact ⟨known, unforced⟩
  case h_10 | h_11 =>
    rw [standing] at known
    cases taken
    refine ⟨?_, unforced⟩
    split
    · trivial
    · exact known
  case h_12 =>
    rw [standing] at known
    cases taken
    refine ⟨?_, unforced⟩
    split
    · -- The word tells whether a receive is waited for.
      rename_i pending
      exact fun c receive => ⟨known c receive, inv.word_of_pending looking receive pending⟩
    · rename_i other
      exact fun c receive => inv.calm_of_word looking receive (known c receive) fun word =>
        other (by rw [word, lcState_edumpiLc])
  case h_13 lc =>
    rw [standing] at known
    split at taken <;> cases taken
    · exact ⟨trivial, unforced⟩
    · rename_i other
      refine ⟨fun c receive => ?_, unforced⟩
      obtain ⟨ended, read⟩ := known c receive
      exact inv.calm_of_word looking receive ended fun word => other (word.trans read.symm)
  case h_14 =>
    split at taken <;> cases taken
    · rename_i stalled
      refine ⟨?_, unforced⟩
      split
      · trivial
      have expires : s.expires cfg clock := ⟨stalled, by omega⟩
      rintro c ⟨owner, args, receive⟩
      -- The call has returned, and left no receive behind.
      have back := patient standing expires _ owner
      simp only [State.back, receive] at back
      simp only [Steady, standing] at steady
      have unposted : (s.ext c).posted = false := steady expires _ owner
      have past : (s.calls c).past = true := by rw [back]; rfl
      exact .inl ⟨unposted, past⟩
    · exact ⟨trivial, unforced⟩
  case h_15 | h_16 | h_17 =>
    cases taken
    exact ⟨trivial, unforced⟩

/-- What the consumer has checked makes up for what the condition does not say. -/
theorem Observed.inTime (observed : Observed cfg s) (inv : Inv cfg s) (records : Records cfg s)
    {a : Action C} (steady : Steady cfg s a) : InTime cfg s a := by
  cases a with
  | drain clock =>
    have known := observed.known
    simp only [Steady] at steady
    simp only [InTime]
    cases standing : s.ring.drain with
    | emit =>
      rw [standing] at steady known
      intro k owner
      have quiet := steady k owner
      cases k with
      | late c => exact quiet
      | call c =>
        refine ⟨quiet.1, fun waiting => ?_, quiet.2⟩
        -- Only a receive is waited for, and the consumer has seen that this one is not.
        have posted := (inv.posted_of_waiting waiting).1
        have receive := (records.marked c).receive (.inr posted)
        exact View.not_waiting_of_calm (known c ⟨owner, receive⟩) waiting
    | abandonExchange lc =>
      rw [standing] at steady
      exact steady
    | _ => trivial
  | _ => trivial

theorem observed_initial : Observed cfg (initial : State C T) := ⟨trivial, rfl⟩

/-- Everything that holds along a run. -/
structure Receives (cfg : Config C T) (s : State C T) : Prop where
  inv : Inv cfg s
  records : Records cfg s
  observed : Observed cfg s

theorem receives_step [DecidableEq C] [DecidableEq T] (s : State C T) (a : Action C) (t : State C T) (before : Receives cfg s)
    (fair : Patient cfg s a ∧ Steady cfg s a) (taken : step cfg s a = some t) :
    Receives cfg t := by
  obtain ⟨inv, records, observed⟩ := before
  have next := next_step s a t inv (observed.inTime inv records fair.2) taken
  refine ⟨next.inv, records.moved inv next.moved, ?_⟩
  cases a with
  | call c now => exact observed.beside inv (inv.stepCall taken)
  | callback c => exact observed.beside inv (inv.recvFinished taken)
  | complete c now => exact observed.beside inv (inv.completeEntry taken)
  | drainCall force max =>
    obtain ⟨ring, moved, rfl⟩ := Option.map_eq_some_iff.mp taken
    obtain ⟨-, rfl⟩ := AmtRing.step_drainCall_eq_some.mp moved
    exact ⟨trivial, fair.1⟩
  | drain clock =>
    obtain ⟨ring, moved, rfl⟩ := Option.map_eq_some_iff.mp taken
    exact observed.drain inv records fair.1 fair.2 moved

/-- A row of a receive has the reported size, and no request is pending in it. -/
theorem Receives.row [DecidableEq C] (receives : Receives cfg s) (posted : (s.ext c).posted = true)
    {r : Leaving (Claimant C)} (among : r ∈ s.rows c) :
    r.entry.recvDatasize = (cfg.status c).received
    ∧ ¬ (r.entry.pendingRequest = 1 ∧ r.entry.requestDone = 0) := by
  obtain ⟨emitted, gone⟩ := receives.inv.mem_rows.mp among
  rcases gone with own | late
  · obtain ⟨size, done⟩ := (receives.records.filled c).gone r own emitted posted
    exact ⟨size, fun ⟨_, undone⟩ => by rw [done] at undone; cases undone⟩
  · obtain ⟨size, pending⟩ := (receives.records.late c).gone r late
    exact ⟨size, fun ⟨marked, _⟩ => by rw [pending] at marked; cases marked⟩

/-- A receive whose callback ran and whose call returned has a completion. -/
theorem Receives.begun (receives : Receives cfg s) (ran : s.callbacks c = .ran)
    (returned : s.calls c = .returned) : s.completes c ≠ .none := by
  rcases (receives.records.handshake c).begun ran with begun | looking
  · exact begun
  · rw [show (s.view cfg c).call = .returned from returned] at looking
    cases looking

end Steps

/--
A receive whose callback ran is handed over once, with the size that the callback has reported.

The runs are those of an unforced consumer that drops nothing and whose stall timeout outlasts every receive call, and in which no call and no completion comes between a check of the consumer and what the consumer does on it. A receive is never handed over while its request is pending and not done.
-/
theorem receive_handed_over_once [DecidableEq C] [DecidableEq T] (cfg : Config C T) (actions : List (Action C)) (s : State C T)
    (ran : exec (step cfg) initial actions = some s)
    (patient : Along (step cfg) (Patient cfg) initial actions)
    (steady : Along (step cfg) (Steady cfg) initial actions) (kept : s.ring.dropped = 0) (c : C)
    (called : s.callbacks c = .ran) :
    (s.rows c).length ≤ 1
    ∧ (∀ r ∈ s.rows c, r.entry.recvDatasize = (cfg.status c).received
      ∧ ¬ (r.entry.pendingRequest = 1 ∧ r.entry.requestDone = 0))
    ∧ (s.calls c = .returned →
      s.completes c = .none ∨ s.completes c = .finished ∨ s.completes c = .wrote →
      s.ring.left.length = s.ring.head → (s.rows c).length = 1) := by
  have receives : Receives cfg s := exec_keeps_along receives_step
    ⟨inv_initial, records_initial, observed_initial⟩ (patient.and steady) ran
  have posted : (s.ext c).posted = true := by
    by_contra unposted
    have quiet := ((receives.inv.views c).quiet (Bool.eq_false_iff.mpr unposted)).2.1
    rw [show (s.view cfg c).callback = .ran from called] at quiet
    cases quiet
  refine ⟨receives.inv.rows_le_one c, fun r => receives.row posted, ?_⟩
  intro returned isOver drained
  -- The handshake has begun a completion, and it is over.
  have isOver := isOver.resolve_left (receives.begun called returned)
  have phase : s.phase c = (s.completes c).phase := by
    simp [State.phase, posted, returned]
  have resolved : s.resolved c := by
    refine ⟨⟨returned, ?_⟩, fun lost => ?_⟩ <;> rcases isOver with isOver | isOver
    all_goals simp_all [State.settled]
  -- Nothing was dropped, so no claim got a scratch entry.
  have whole : ∀ k, s.ring.claims k ≠ .scratch := by
    intro k dropped
    have lost := receives.inv.ring.inv.tickets.lost
    rw [kept, Nat.cast_zero, Set.encard_eq_zero] at lost
    exact Set.eq_empty_iff_forall_notMem.mp lost k (by simp [dropped])
  obtain ⟨r, among⟩ := receives.inv.rows_of_resolved resolved drained (whole _) (whole _)
  have some := List.length_pos_of_mem among
  have once := receives.inv.rows_le_one c
  omega

/-- Two receives on threads of their own, and a ring for both of them. -/
def twoReceives : Config Bool Bool where
  ring := ⟨2, 10, 10, Nat.two_pos⟩
  process := ⟨0, [], 1⟩
  call := fun _ => .irecv ⟨1, 1, .int, .world, .posted⟩
  status := fun c => ⟨false, if c then 8 else 4, 1⟩
  thread := id
  finisher := id

/-- The first receive is completed in place, the second one after the consumer gave it up. -/
def twoReceivesRun : List (Action Bool) :=
  replicate 18 (.call false ⟨1, 1⟩) ++ replicate 18 (.call true ⟨1, 1⟩)
    ++ replicate 4 (.callback false) ++ replicate 7 (.complete false ⟨2, 2⟩)
    ++ .drainCall false 5 :: replicate 22 (.drain 2000000000)
    ++ replicate 4 (.callback true) ++ replicate 11 (.complete true ⟨3, 3⟩)
    ++ .drainCall false 5 :: replicate 8 (.drain 4000000000)

theorem receive_handed_over_once_late :
    ∃ s, exec (step twoReceives) initial twoReceivesRun = some s
      ∧ s.completes false = .finished ∧ s.completes true = .wrote
      ∧ ∀ c, (s.rows c).length = 1 := by
  refine reaches_of_decide (P := fun s => s.ring.dropped = 0 ∧ (∀ c, s.callbacks c = .ran)
      ∧ (∀ c, s.calls c = .returned) ∧ s.completes false = .finished ∧ s.completes true = .wrote
      ∧ s.ring.left.length = s.ring.head) (by decide +kernel)
    fun s ran ⟨kept, called, returned, place, late, drained⟩ => ⟨place, late, fun c => ?_⟩
  have once := receive_handed_over_once twoReceives twoReceivesRun s ran (by decide +kernel)
    (by decide +kernel) kept c (called c)
  refine once.2.2 (returned c) ?_ drained
  cases c with
  | false => exact .inr (.inl place)
  | true => exact .inr (.inr late)

/--
The consumer sees that no completion is at work, and then one takes the entry over.

The consumer cannot give the entry up any more and hands it over as it is: the request is still pending and not done, and the size is missing.
-/
theorem receive_handed_over_pending :
    ∃ actions s, exec (step twoReceives) initial actions = some s
      ∧ Along (step twoReceives) (Patient twoReceives) initial actions ∧ s.ring.dropped = 0
      ∧ s.callbacks false = .ran ∧ s.calls false = .returned ∧ s.completes false = .finished
      ∧ ∃ r ∈ s.rows false, r.entry.pendingRequest = 1 ∧ r.entry.requestDone = 0
        ∧ r.entry.recvDatasize ≠ (twoReceives.status false).received := by
  let actions : List (Action Bool) :=
    replicate 18 (.call false ⟨1, 1⟩)
      ++ .drainCall false 5 :: replicate 9 (.drain 2000000000)
      ++ replicate 4 (.callback false) ++ [.complete false ⟨2, 2⟩]
      ++ replicate 5 (.drain 2000000000) ++ replicate 6 (.complete false ⟨2, 2⟩)
  exact ⟨actions, exec_reaches (by decide +kernel)⟩

end EduMpi.Ucx
