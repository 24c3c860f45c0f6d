import EduMpi.Pml.UcxView

/-! What a single step of the UCX PML can do to the view of one call. -/

namespace EduMpi.Ucx

open AmtRing (ClaimPc Leaving Pointer)

variable {C T : Type}

/-- The entry of a call after plain stores into it. -/
def View.stored (v : View C T) (change : QEntry → QEntry) : Option QEntry :=
  v.entry.map fun e => (change e).withLifecycle e.lifecycle

/-- The late entry of a call after plain stores into it. -/
def View.lateStored (v : View C T) (change : QEntry → QEntry) : Option QEntry :=
  v.lateEntry.map fun e => (change e).withLifecycle e.lifecycle

/-- The entry of a call after a store into its lifecycle word. -/
def View.worded (v : View C T) (word : Nat) : Option QEntry :=
  v.entry.map fun e => e.withLifecycle word

/-- The entry an answered claim of a call stands for. -/
def Config.place (cfg : Config C T) (c : C) : ClaimPc → Pointer T
  | .slot h => .slot (h % cfg.ring.size)
  | _ => .scratch (cfg.thread c)

/-- The steps of a call, its callback, its completion and the consumer, as the call sees them. -/
inductive Move (cfg : Config C T) (c : C) (v : View C T) : View C T → Prop where
  | begin (standing : v.call = .idle) (empty : v.entry = none) :
      Move cfg c v { v with call := .claiming }
  | claim (standing : v.call = .claiming) {pc : ClaimPc} {entry : Option QEntry}
      (fresh : ∀ e, entry = some e → pc.Fresh e) :
      Move cfg c v { v with claim := pc, entry := entry, leaving := none }
  /-- The claim function returns. -/
  | answer (standing : v.call = .claiming) (answered : v.claim.answered = true)
      (held : ∀ e, v.entry = some e → v.claim ≠ .scratch) {pc : CallPc}
      (next : pc = .fill ∨ pc = .stores 0) : Move cfg c v { v with call := pc }
  | store {made : Nat} (standing : v.call = .stores made) (change : QEntry → QEntry) :
      Move cfg c v { v with call := .stores (made + 1), entry := v.stored change }
  | stop {made : Nat} (standing : v.call = .stores made) : Move cfg c v { v with call := .returned }
  | fill {args : IrecvArgs} (standing : v.call = .fill) (now : Timespec) :
      Move cfg c v { v with
        call := .pending
        entry := v.stored (args.fill cfg.process now) }
  | unmarked {args : IrecvArgs} (receive : cfg.call c = .irecv args) (standing : v.call = .pending)
      (null : args.source = mpiProcNull) : Move cfg c v { v with call := .checks }
  | mark (standing : v.call = .pending) :
      Move cfg c v { v with call := .checks, entry := v.stored ({ · with pendingRequest := 1 }) }
  | reject (standing : v.call = .checks) : Move cfg c v { v with call := .returned }
  | accept {args : IrecvArgs} (receive : cfg.call c = .irecv args) (standing : v.call = .checks)
      (real : args.source ≠ mpiProcNull) : Move cfg c v { v with call := .post }
  | fail {args : IrecvArgs} (standing : v.call = .post) :
      Move cfg c v { v with
        call := .clearPending
        entry := v.stored args.recount }
  | post {args : IrecvArgs} (receive : cfg.call c = .irecv args) (standing : v.call = .post) :
      Move cfg c v { v with
        call := .snapshot
        ext := { v.ext with posted := true }
        entry := v.stored args.recount }
  | clearPending (standing : v.call = .clearPending) :
      Move cfg c v { v with call := .stampSec, entry := v.stored ({ · with pendingRequest := 0 }) }
  | snapshot (standing : v.call = .snapshot) {x : ReqExt T}
      (same : x.q = v.ext.q ∧ x.bytes = v.ext.bytes ∧ x.cbDone = v.ext.cbDone
        ∧ x.finished = v.ext.finished ∧ x.posted = v.ext.posted)
      (number : x.ticket = v.claim.number) : Move cfg c v { v with call := .arm, ext := x }
  | arm (standing : v.call = .arm) :
      Move cfg c v { v with
        call := .publish
        entry := v.worded (edumpiLc v.ext.ticket .pending) }
  | publish (standing : v.call = .publish) :
      Move cfg c v { v with
        call := .check
        ext := { v.ext with q := some (cfg.place c v.claim) } }
  | unseen (standing : v.call = .check) (waits : v.ext.cbDone = false) :
      Move cfg c v { v with call := .stampSec }
  | seen (standing : v.call = .check) (called : v.ext.cbDone = true) :
      Move cfg c v { v with call := .exchange }
  /-- The callback has come first. -/
  | second (standing : v.call = .exchange) (finished : v.ext.finished = true) :
      Move cfg c v { v with call := .stampSec }
  | first (standing : v.call = .exchange) (free : v.ext.finished = false) :
      Move cfg c v { v with
        call := .completing
        ext := { v.ext with finished := true }
        complete := .compareExchange }
  | completed (standing : v.call = .completing)
      (isOver : v.complete = .finished ∨ v.complete = .wrote) :
      Move cfg c v { v with call := .stampSec }
  | stampSec (standing : v.call = .stampSec) (now : Timespec) :
      Move cfg c v { v with
        call := .stampNsec now
        entry := v.stored fun item =>
          { item with endTime := { item.endTime with tvSec := now.tvSec } } }
  | stampNsec {now : Timespec} (standing : v.call = .stampNsec now) :
      Move cfg c v { v with
        call := .returned
        entry := v.stored fun item =>
          { item with endTime := { item.endTime with tvNsec := now.tvNsec } } }
  | report (standing : v.callback = .waiting) (posted : v.ext.posted = true) :
      Move cfg c v { v with
        callback := .storeDone
        ext := { v.ext with
          bytes := (cfg.status c).received
          source := (cfg.status c).sender } }
  | announce (standing : v.callback = .storeDone) :
      Move cfg c v { v with callback := .loadQ, ext := { v.ext with cbDone := true } }
  | unattached (standing : v.callback = .loadQ) (missing : v.ext.q = none) :
      Move cfg c v { v with callback := .ran }
  | attached (standing : v.callback = .loadQ) (found : v.ext.q.isSome = true) :
      Move cfg c v { v with callback := .exchange }
  /-- The call has come first. -/
  | callbackSecond (standing : v.callback = .exchange) (finished : v.ext.finished = true) :
      Move cfg c v { v with callback := .ran }
  | callbackFirst (standing : v.callback = .exchange) (free : v.ext.finished = false) :
      Move cfg c v { v with
        callback := .ran
        ext := { v.ext with finished := true }
        complete := .compareExchange }
  | takeOver (standing : v.complete = .compareExchange) (here : v.leaving = none) :
      Move cfg c v { v with
        complete := .partner
        entry := v.worded (edumpiLc v.ext.ticket .finishing) }
  | giveUp (standing : v.complete = .compareExchange)
      (gone : v.claim = .scratch ∨ v.leaving.isSome = true) (empty : v.entry = none) :
      Move cfg c v { v with complete := .claiming }
  | partner (standing : v.complete = .partner) :
      Move cfg c v { v with
        complete := .endSec
        entry := v.stored v.ext.nameSender }
  | endSec (standing : v.complete = .endSec) (now : Timespec) :
      Move cfg c v { v with
        complete := .endNsec now
        entry := v.stored fun q => { q with endTime := { q.endTime with tvSec := now.tvSec } } }
  | endNsec {now : Timespec} (standing : v.complete = .endNsec now) :
      Move cfg c v { v with
        complete := .copyStart
        entry := v.stored fun q => { q with endTime := { q.endTime with tvNsec := now.tvNsec } } }
  | copyStart (standing : v.complete = .copyStart) :
      Move cfg c v { v with
        complete := .size
        entry := v.stored fun q => { q with startTime := q.endTime } }
  | size (standing : v.complete = .size) :
      Move cfg c v { v with
        complete := .done
        entry := v.stored ({ · with recvDatasize := v.ext.bytes }) }
  | done (standing : v.complete = .done) :
      Move cfg c v { v with
        complete := .finished
        entry := v.stored ({ · with requestDone := 1 }) }
  | lateClaim (standing : v.complete = .claiming) {pc : ClaimPc} {entry : Option QEntry}
      (fresh : ∀ e, entry = some e → pc.Fresh e) :
      Move cfg c v { v with lateClaim := pc, lateEntry := entry, lateLeaving := none }
  | lateAnswer (standing : v.complete = .claiming) (answered : v.lateClaim.answered = true)
      (held : ∀ e, v.lateEntry = some e → v.lateClaim ≠ .scratch) :
      Move cfg c v { v with complete := .lateFill }
  | lateFill (standing : v.complete = .lateFill) (now : Timespec) :
      Move cfg c v { v with
        complete := .lateNsec now
        lateEntry := v.lateStored (lateEntry cfg.process v.ext now) }
  | lateNsec {now : Timespec} (standing : v.complete = .lateNsec now) :
      Move cfg c v { v with
        complete := .lateSec now
        lateEntry := v.lateStored fun n =>
          { n with endTime := { n.endTime with tvNsec := now.tvNsec } } }
  | lateSec {now : Timespec} (standing : v.complete = .lateSec now) :
      Move cfg c v { v with
        complete := .wrote
        lateEntry := v.lateStored fun n =>
          { n with endTime := { n.endTime with tvSec := now.tvSec } } }
  /-- The consumer hands the entry over or gives it up. -/
  | leave (returned : v.call = .returned) {r : Leaving (Claimant C)}
      (how : r.emitted = v.phase.handsOver) (still : v.phase ≠ .filling)
      (seen : r.emitted = true → v.entry = some r.entry) :
      Move cfg c v { v with entry := none, leaving := some r }
  | lateLeave (written : v.complete = .wrote) {r : Leaving (Claimant C)} (how : r.emitted = true)
      (seen : v.lateEntry = some r.entry) :
      Move cfg c v { v with lateEntry := none, lateLeaving := some r }

section Ok

variable {cfg : Config C T} {c : C} {place : ClaimPc → Pointer T} {status : RecvStatus}
  {v w : View C T}

section Oks

variable (ok : v.Ok place status) {pc : CallPc}

include ok

/-- Before its post, a call moves on. -/
theorem View.Ok.early (early : v.call.afterPost = false) (active : v.call.active = true)
    (claimed : v.call ≠ .claiming) (started : pc ≠ .idle ∧ pc ≠ .claiming)
    (next : pc.attaching = false) :
    View.Ok place status { v with call := pc } := by
  have begun : v.call ≠ .idle := by
    intro idle
    simp [idle] at active
  exact ok.moveEarly early active started (ok.answered begun claimed) next
    fun e held => ok.word_of_early early claimed held

/-- Before its post, a call stores into its entry and moves on. -/
theorem View.Ok.earlyStore (early : v.call.afterPost = false) (active : v.call.active = true)
    (claimed : v.call ≠ .claiming) (started : pc ≠ .idle ∧ pc ≠ .claiming)
    (next : pc.attaching = false) (change : QEntry → QEntry) :
    View.Ok place status { v with call := pc, entry := v.stored change } :=
  (ok.store claimed change).early early active claimed started next

/-- Behind its post, a call moves on without touching its receive. -/
theorem View.Ok.onward (active : v.call.active = true) (after : v.call.afterPost = true)
    (past : v.call ≠ .snapshot ∧ v.call ≠ .arm)
    (attaching : pc.attaching = true → v.call.attaching = true) (next : pc.afterPost = true)
    (beyond : pc ≠ .snapshot ∧ pc ≠ .arm ∧ pc ≠ .check)
    (seen : pc = .exchange → v.call = .check ∧ v.ext.cbDone = true) :
    View.Ok place status { v with call := pc } := by
  have begun : v.call ≠ .idle ∧ v.call ≠ .claiming := by
    constructor <;> intro standing <;> simp [standing] at after
  refine ok.moveCall active ?_ (ok.answered begun.1 begun.2) (fun standing => ?_) (fun _ => next)
    (fun _ => ⟨past.1, past.2, beyond.1, beyond.2.1⟩) ?_ ?_ (ok.word begun.2)
  · constructor <;> rintro rfl <;> cases next
  · exact ok.attaching (attaching standing)
  · rintro (check | exchange)
    · exact absurd check beyond.2.2
    · exact ok.seen (.inr (.inl (seen exchange).1))
  · intro exchange
    exact ok.called (.inl (seen exchange).2)

/-- A completion that fills its entry works for a call whose ticket is in the ring. -/
theorem View.Ok.here_of_filling (filling : v.complete.phase = .filling) :
    v.phase = .filling ∧ v.leaving = none ∧ v.call ≠ .claiming := by
  have begun : v.complete ≠ .none := by
    intro none
    simp [none] at filling
  have armed := ok.armed_of_begun begun
  have phase : v.phase = .filling := (if_pos armed).trans filling
  refine ⟨phase, ?_, ok.claimed_of_armed armed⟩
  cases gone : v.leaving with
  | none => rfl
  | some r => exact absurd phase (ok.left r gone).2

/-- A completion stores into the entry it has taken over and goes on. -/
theorem View.Ok.fillIn (filling : v.complete.phase = .filling)
    (change : QEntry → QEntry) {pc : CompletePc} (next : pc.phase = .filling) :
    View.Ok place status { v with complete := pc, entry := v.stored change } := by
  obtain ⟨_, _, claimed⟩ := ok.here_of_filling filling
  have apart : v.complete ≠ .none ∧ v.complete ≠ .claiming ∧ v.complete ≠ .wrote := by
    refine ⟨?_, ?_, ?_⟩ <;> intro standing <;> simp [standing] at filling
  have onward : pc ≠ .none ∧ pc.late = false ∧ pc ≠ .claiming := by
    cases pc <;> simp_all
  exact (ok.store claimed change).moveComplete (next.trans filling.symm) apart.1 onward.1
    (by rw [onward.2.1]; simp) onward.2.2 (ok.lateWord apart.2.1) apart.2.2

/-- A completion stores into its late entry and goes on. -/
theorem View.Ok.lateOnward (late : v.complete.late = true)
    (unfinished : v.complete ≠ .wrote) (change : QEntry → QEntry) {pc : CompletePc}
    (next : pc.late = true) :
    View.Ok place status { v with complete := pc, lateEntry := v.lateStored change } := by
  have lost : ∀ pc : CompletePc, pc.late = true → pc.phase = .lost ∧ pc ≠ .none ∧ pc ≠ .claiming := by
    intro pc late
    cases pc <;> simp_all
  obtain ⟨phase, begun, claimed⟩ := lost _ late
  obtain ⟨onward, started, unclaimed⟩ := lost pc next
  have stored := ok.lateStore claimed change
  exact stored.moveComplete (onward.trans phase.symm) begun started
    (fun _ => ok.lateAnswered late) unclaimed (stored.lateWord claimed) unfinished

end Oks

/-- Whatever a step does to a call, it keeps what holds for the call. -/
theorem Move.ok (ok : v.Ok (cfg.place c) (cfg.status c)) (move : Move cfg c v w) :
    w.Ok (cfg.place c) (cfg.status c) := by
  cases move with
  | begin standing empty => exact ok.begin standing empty
  | claim standing fresh => exact ok.claim standing fresh
  | answer standing answered held next =>
    refine ok.moveEarly ?_ ?_ ?_ answered ?_ ?_
    · simp [standing]
    · simp [standing]
    · rcases next with rfl | rfl <;> simp
    · rcases next with rfl | rfl <;> rfl
    · exact fun e some => word_of_fresh (ok.fresh standing e some) answered (held e some)
  -- Up to the post, nothing but the entry is concerned.
  | store standing change | fill standing now | mark standing | fail standing
  | clearPending standing =>
    refine ok.earlyStore ?_ ?_ ?_ (by simp) rfl _ <;>
      simp [standing]
  | stop standing | unmarked _ standing _ | reject standing | accept _ standing _ =>
    refine ok.early ?_ ?_ ?_ (by simp) rfl <;> simp [standing]
  | post _ standing => exact (ok.store (by simp [standing]) _).post standing
  | snapshot standing same number => exact ok.snapshot standing same number
  | arm standing => exact ok.arm standing
  | publish standing => exact ok.publish standing
  | unseen standing _ | second standing _ | completed standing _ =>
    refine ok.onward ?_ ?_ ?_ ?_ rfl ?_ ?_ <;>
      simp [standing]
  | seen standing called =>
    refine ok.onward ?_ ?_ ?_ ?_ rfl ?_ fun _ => ⟨standing, called⟩ <;>
      simp [standing]
  | first standing free =>
    have begun := ok.beginComplete free (ok.seen (.inr (.inr standing)))
      (ok.called (.inr (.inr standing)))
    refine begun.onward ?_ ?_ ?_ ?_ rfl ?_ ?_ <;>
      simp [standing]
  | stampSec standing now | stampNsec standing =>
    refine (ok.store (by simp [standing]) _).onward ?_ ?_ ?_ ?_ rfl ?_ ?_ <;>
      simp [standing]
  | report standing posted => exact ok.report posted .storeDone (by simp) (by simp)
  | announce standing => exact ok.moveCallback (by simp [standing]) .loadQ (by simp) (by simp)
  | unattached standing _ | callbackSecond standing _ =>
    exact ok.moveCallback (by simp [standing]) .ran (by simp) (by simp)
  | attached standing found =>
    exact ok.moveCallback (by simp [standing]) .exchange (by simp) fun _ => found
  | callbackFirst standing free =>
    have begun := ok.beginComplete free (ok.seen (.inl standing)) (by simp [standing])
    exact begun.moveCallback (by simp [standing]) .ran (by simp) (by simp)
  | takeOver standing here => exact ok.takeOver standing here
  | giveUp standing gone empty =>
    refine ok.giveUp standing gone empty ?_
    rw [ok.lateUnborn (by simp [standing])]
    exact fun _ _ => trivial
  | partner standing | endSec standing _ | endNsec standing | copyStart standing
  | size standing => exact ok.fillIn (by simp [standing]) _ rfl
  | done standing =>
    obtain ⟨_, _, claimed⟩ := ok.here_of_filling (by simp [standing])
    exact (ok.store claimed _).finish standing
  | lateClaim standing fresh => exact ok.lateClaiming standing fresh
  | lateAnswer standing answered held =>
    refine ok.moveComplete ?_ ?_ (by simp) (fun _ => answered) (by simp) ?_ ?_
    · simp [standing]
    · simp [standing]
    · exact fun e some => word_of_fresh (ok.lateFresh standing e some) answered (held e some)
    · simp [standing]
  | lateFill standing now | lateNsec standing | lateSec standing =>
    exact ok.lateOnward (by simp [standing]) (by simp [standing]) _ rfl
  | leave returned how still seen => exact ok.leave returned how still
  | lateLeave written how seen => exact ok.lateLeave written how

end Ok

end EduMpi.Ucx
