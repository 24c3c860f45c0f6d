import EduMpi.Pml.UcxMove

/-! What the entry of a receive says, and the handshake between the call and its callback. -/

namespace EduMpi.Ucx

open Option View
open AmtRing (ClaimPc Leaving)

variable {C T : Type}

/-- The call may have stamped its entry, or it is no receive. -/
@[simp] def CallPc.past : CallPc → Bool
  | .stores _ | .stampNsec _ | .returned => true
  | _ => false

/-- The receive is posted, and its call has yet to look for the callback. -/
@[simp] def CallPc.looking : CallPc → Bool
  | .snapshot | .arm | .publish | .check | .exchange => true
  | _ => false

/-- The completion has filled its late entry. -/
@[simp] def CompletePc.filledLate : CompletePc → Bool
  | .lateNsec _ | .lateSec _ | .wrote => true
  | _ => false

/-- As long as nobody has stamped the end of a receive, its entry has none. -/
def View.Unstamped (v : View C T) : Prop :=
  v.call.past = false → v.call ≠ .claiming → v.phase = .unarmed ∨ v.phase = .waiting →
    ∀ e, v.entry = some e → e.endTime = ⟨0, 0⟩

/-- The entry of a posted receive says that a request is pending. -/
structure View.Marked (cfg : Config C T) (c : C) (v : View C T) : Prop where
  receive : v.call = .post ∨ v.ext.posted = true → ∃ args, cfg.call c = .irecv args
  checked : v.call = .checks → ∀ args, cfg.call c = .irecv args → args.source ≠ mpiProcNull →
    ∀ e, v.entry = some e → e.pendingRequest = 1
  marked : v.call = .post ∨ v.ext.posted = true → ∀ e, v.entry = some e → e.pendingRequest = 1

/-- The entry of a receive says that its request is done once it has the received size. -/
structure View.Filled (cfg : Config C T) (c : C) (v : View C T) : Prop where
  undone : v.call.past = false ∨ v.ext.posted = true → v.call ≠ .claiming → v.phase ≠ .filled →
    ∀ e, v.entry = some e → e.requestDone = 0
  done : v.complete = .finished → ∀ e, v.entry = some e → e.requestDone = 1
  sized : v.complete = .done ∨ v.complete = .finished →
    ∀ e, v.entry = some e → e.recvDatasize = (cfg.status c).received
  gone : ∀ r, v.leaving = some r → r.emitted = true → v.ext.posted = true →
    r.entry.recvDatasize = (cfg.status c).received ∧ r.entry.requestDone = 1

/-- A late entry has the received size and no pending request. -/
structure View.LateFilled (cfg : Config C T) (c : C) (v : View C T) : Prop where
  blank : v.complete = .lateFill → ∀ e, v.lateEntry = some e → e.pendingRequest = 0
  sized : v.complete.filledLate = true → ∀ e, v.lateEntry = some e →
    e.recvDatasize = (cfg.status c).received ∧ e.pendingRequest = 0
  gone : ∀ r, v.lateLeaving = some r →
    r.entry.recvDatasize = (cfg.status c).received ∧ r.entry.pendingRequest = 0

/-- Neither the call nor its callback can miss the other one. -/
structure View.Handshake (v : View C T) : Prop where
  published : v.ext.posted = true → v.ext.q = none →
    v.call = .snapshot ∨ v.call = .arm ∨ v.call = .publish
  announced : v.callback ≠ .waiting → v.callback ≠ .storeDone → v.ext.cbDone = true
  begun : v.callback = .ran → v.complete ≠ .none ∨ v.call.looking = true

section Handshake

variable {cfg : Config C T} {c : C} {v w : View C T}

/-- A step of the handshake: whoever comes second sees the other one. -/
theorem Move.handshake (ok : v.Ok (cfg.place c) (cfg.status c)) (shake : v.Handshake)
    (move : Move cfg c v w) : w.Handshake := by
  cases move with
  | post _ standing =>
    -- The receive is posted now, so its callback has not come yet.
    have quiet := ok.quiet (ok.unposted (by simp [standing]))
    exact ⟨fun _ _ => .inl rfl, by simp [quiet.2.1], by simp [quiet.2.1]⟩
  | snapshot standing same number =>
    obtain ⟨q, _, called, _, posted⟩ := same
    exact ⟨fun _ _ => .inr (.inl rfl), fun later after => called.trans (shake.announced later after),
      fun _ => .inr rfl⟩
  | arm standing => exact ⟨fun _ _ => .inr (.inr rfl), shake.announced, fun _ => .inr rfl⟩
  | publish standing => exact ⟨by simp, shake.announced, fun _ => .inr rfl⟩
  | seen standing called =>
    exact ⟨fun posted missing => by simpa [standing] using shake.published posted missing,
      shake.announced, fun _ => .inr rfl⟩
  | unseen standing waits =>
    refine ⟨fun posted missing => by simpa [standing] using shake.published posted missing,
      shake.announced, fun ran => ?_⟩
    -- The callback has not announced itself, so it is not over.
    have called := shake.announced (by simp [show v.callback = .ran from ran])
      (by simp [show v.callback = .ran from ran])
    rw [waits] at called
    cases called
  | second standing finished =>
    exact ⟨fun posted missing => by simpa [standing] using shake.published posted missing,
      shake.announced, fun _ => .inl (ok.finished.mp finished)⟩
  | first standing free =>
    exact ⟨fun posted missing => by simpa [standing] using shake.published posted missing,
      shake.announced, fun _ => .inl (by simp)⟩
  | completed standing isOver =>
    refine ⟨fun posted missing => by simpa [standing] using shake.published posted missing,
      shake.announced, fun _ => .inl ?_⟩
    rcases isOver with isOver | isOver <;> simp [isOver]
  | stampSec standing now | stampNsec standing =>
    exact ⟨fun posted missing => by simpa [standing] using shake.published posted missing,
      shake.announced, fun ran => by simpa [standing] using shake.begun ran⟩
  | report standing posted => exact ⟨shake.published, by simp, by simp⟩
  | announce standing => exact ⟨shake.published, fun _ _ => rfl, by simp⟩
  | unattached standing missing =>
    have posted : v.ext.posted = true := by
      cases posted : v.ext.posted with
      | true => rfl
      | false => simp [(ok.quiet posted).2.1] at standing
    refine ⟨shake.published, fun _ _ => shake.announced (by simp [standing]) (by simp [standing]),
      fun _ => .inr ?_⟩
    -- The entry is not attached yet, so the call will look for the callback.
    rcases shake.published posted missing with call | call | call <;> simp [call]
  | attached standing found =>
    exact ⟨shake.published, fun _ _ => shake.announced (by simp [standing]) (by simp [standing]),
      by simp⟩
  | callbackSecond standing finished =>
    exact ⟨shake.published, fun _ _ => shake.announced (by simp [standing]) (by simp [standing]),
      fun _ => .inl (ok.finished.mp finished)⟩
  | callbackFirst standing free =>
    exact ⟨shake.published, fun _ _ => shake.announced (by simp [standing]) (by simp [standing]),
      fun _ => .inl (by simp)⟩
  -- A completion that has begun stays begun.
  | takeOver standing | giveUp standing | partner standing | endSec standing | endNsec standing
  | copyStart standing | size standing | done standing | lateAnswer standing | lateFill standing
  | lateNsec standing | lateSec standing =>
    exact { shake with begun := fun _ => .inl (by simp) }
  | lateClaim | leave | lateLeave | claim =>
    exact { shake with }
  -- Before the post there is no callback.
  | begin standing | answer standing | store standing | stop standing | fill standing
  | unmarked _ standing | mark standing | reject standing | accept _ standing | fail standing
  | clearPending standing =>
    have unposted := ok.unposted (by simp [standing])
    have quiet := ok.quiet unposted
    exact ⟨by simp [unposted], shake.announced, by simp [quiet.2.1]⟩

end Handshake

section Entries

variable {cfg : Config C T} {c : C} {v w : View C T}

section Ok

variable (ok : v.Ok (cfg.place c) (cfg.status c))

include ok

/-- The end of a receive is stamped by its call or its completion, and by nobody else. -/
theorem Move.unstamped (blank : v.Unstamped) (move : Move cfg c v w) : w.Unstamped := by
  have after := move.ok ok
  intro past claimed phase e held
  cases move with
  | begin | claim standing => simp_all
  | answer standing answered some next =>
    -- The entry is as the claim has left it.
    rw [eq_of_fresh (ok.fresh standing e held) answered (some e held)]
    rfl
  | fill standing now =>
    obtain ⟨before, _, rfl⟩ := map_eq_some_iff.mp held
    rfl
  | mark standing | fail standing | post _ standing | clearPending standing =>
    obtain ⟨before, kept, rfl⟩ := map_eq_some_iff.mp held
    exact blank (by rw [standing]; rfl) (by simp [standing])
      (.inl (ok.phase_of_early (by rw [standing]; rfl))) before kept
  | unmarked _ standing | accept _ standing =>
    exact blank (by rw [standing]; rfl) (by simp [standing])
      (.inl (ok.phase_of_early (by rw [standing]; rfl))) e held
  | snapshot standing =>
    exact blank (by rw [standing]; rfl) (by simp [standing])
      (.inl (by simp [View.phase, armed, standing])) e held
  | arm standing =>
    obtain ⟨before, kept, rfl⟩ := map_eq_some_iff.mp held
    exact blank (by rw [standing]; rfl) (by simp [standing])
      (.inl (by simp [View.phase, armed, standing])) before kept
  -- The call looks for its callback, and the phase stays.
  | publish standing | unseen standing | seen standing | second standing | completed standing =>
    refine blank (by rw [standing]; rfl) (by simp [standing]) ?_ e held
    simpa [View.phase, armed, standing] using phase
  | first standing free =>
    refine blank (by rw [standing]; rfl) (by simp [standing]) ?_ e held
    simp [View.phase, ok.none_of_free free]
  | report | announce | unattached | attached | callbackSecond | lateClaim | lateLeave =>
    exact blank past claimed phase e held
  | callbackFirst standing free =>
    refine blank past claimed ?_ e held
    simp [View.phase, ok.none_of_free free]
  | leave => cases held
  | store standing | stop standing | reject standing | stampSec standing | stampNsec standing =>
    cases past
  -- A completion at work has stamped the entry, or has lost it.
  | takeOver | giveUp | partner | endSec | endNsec | copyStart | size | done | lateAnswer
  | lateFill | lateNsec | lateSec =>
    rw [after.phase_of_begun (by simp)] at phase
    simp at phase

/-- A receive is posted with the mark of a pending request in its entry. -/
theorem Move.marked (marks : v.Marked cfg c) (move : Move cfg c v w) : w.Marked cfg c := by
  -- Stores that leave the mark alone.
  have keep : ∀ {change : QEntry → QEntry}, (∀ e, (change e).pendingRequest = e.pendingRequest) →
      v.call = .post ∨ v.ext.posted = true → ∀ e, v.stored change = some e →
      e.pendingRequest = 1 := fun same posted =>
    of_map fun before kept => (same before).trans (marks.marked posted before kept)
  -- Before the post nothing is asked for; from then on the mark is never touched.
  cases move with
  | begin standing | answer standing | store standing | stop standing | reject standing
  | fill standing | fail standing | clearPending standing =>
    have unposted := ok.unposted (by simp [standing])
    refine ⟨?_, ?_, ?_⟩ <;> simp [unposted]
    all_goals rcases ‹_ ∨ _› with rfl | rfl <;> simp
  | claim standing =>
    have unposted := ok.unposted (by simp [standing])
    refine ⟨?_, ?_, ?_⟩ <;> simp [unposted, standing]
  | unmarked receive standing null =>
    have unposted := ok.unposted (by simp [standing])
    refine ⟨by simp [unposted], ?_, by simp [unposted]⟩
    intro _ args same real
    rw [receive] at same
    cases same
    exact absurd null real
  | mark standing =>
    have unposted := ok.unposted (by simp [standing])
    exact ⟨by simp [unposted], fun _ _ _ _ => of_map fun _ _ => rfl, by simp [unposted]⟩
  | accept receive standing real =>
    exact ⟨fun _ => ⟨_, receive⟩, by simp, fun _ => marks.checked standing _ receive real⟩
  | post receive standing =>
    exact ⟨fun _ => ⟨_, receive⟩, by simp, fun _ => keep (fun _ => rfl) (.inl standing)⟩
  | snapshot standing same _ =>
    have posted := same.2.2.2.2
    exact ⟨fun later => marks.receive (.inr (by simpa [posted] using later)), by simp,
      fun later => marks.marked (.inr (by simpa [posted] using later))⟩
  | arm standing =>
    exact ⟨fun later => marks.receive (.inr (by simpa using later)), by simp,
      fun later => of_map (marks.marked (.inr (by simpa using later)))⟩
  | publish | unseen | seen | second | first | completed =>
    exact ⟨fun later => marks.receive (.inr (by simpa using later)), by simp,
      fun later => marks.marked (.inr (by simpa using later))⟩
  | stampSec | stampNsec =>
    exact ⟨fun later => marks.receive (.inr (by simpa using later)), by simp,
      fun later => keep (fun _ => rfl) (.inr (by simpa using later))⟩
  | report | announce | unattached | attached | callbackSecond | callbackFirst | giveUp
  | lateClaim | lateAnswer | lateFill | lateNsec | lateSec | lateLeave =>
    exact { marks with }
  | leave => exact ⟨marks.receive, by simp, by simp⟩
  | takeOver standing =>
    have posted := posted_of_armed (ok.armed_of_begun (by simp [standing]))
    refine ⟨marks.receive, fun checks => ?_, fun _ => of_map (marks.marked (.inr posted))⟩
    have later := ok.afterPost posted
    simp [show v.call = .checks from checks] at later
  | partner standing | endSec standing | endNsec standing | copyStart standing | size standing
  | done standing =>
    have posted := posted_of_armed (ok.armed_of_begun (by simp [standing]))
    refine ⟨marks.receive, ?_, fun _ => keep ?_ (.inr posted)⟩
    · intro checks
      have later := ok.afterPost posted
      simp [show v.call = .checks from checks] at later
    · intro e
      rfl

end Ok

/-- A receive that is handed over has been filled in. -/
theorem View.finished_of_handsOver (returned : v.call = .returned) (posted : v.ext.posted = true)
    (isOver : v.phase.handsOver = true) : v.complete = .finished := by
  -- The call is past its snapshot, so a receive waits on the entry, or did.
  have phase : v.phase = v.complete.phase := by simp [View.phase, armed, posted, returned]
  cases complete : v.complete <;> simp_all

/-- The stores of a call keep what its completion has written. -/
theorem View.Filled.store (filled : v.Filled cfg c) {change : QEntry → QEntry}
    (same : ∀ e, (change e).requestDone = e.requestDone) {pc : CallPc} {x : ReqExt T}
    (past : pc.past = false ∨ x.posted = true → v.call.past = false ∨ v.ext.posted = true)
    (claimed : v.call ≠ .claiming)
    (phase : View.phase { v with call := pc, ext := x } ≠ .filled → v.phase ≠ .filled)
    (size : v.complete = .none ∨ ∀ e, (change e).recvDatasize = e.recvDatasize)
    (here : v.leaving = none) :
    View.Filled cfg c { v with call := pc, ext := x, entry := v.stored change } where
  undone := fun going _ unfilled => of_map fun before kept =>
    (same before).trans (filled.undone (past going) claimed (phase unfilled) before kept)
  done := fun isOver => of_map fun before kept =>
    (same before).trans (filled.done isOver before kept)
  sized := by
    refine fun isOver => of_map fun before kept => ?_
    rcases size with none | size
    · simp [show v.complete = .none from none] at isOver
    · exact (size before).trans (filled.sized isOver before kept)
  gone := by simp [here]

/-- A call moves on and leaves its entry alone. -/
theorem View.Filled.move (filled : v.Filled cfg c) {pc : CallPc} {x : ReqExt T}
    (past : pc.past = false ∨ x.posted = true → v.call.past = false ∨ v.ext.posted = true)
    (claimed : v.call ≠ .claiming)
    (phase : View.phase { v with call := pc, ext := x } ≠ .filled → v.phase ≠ .filled)
    (here : v.leaving = none) : View.Filled cfg c { v with call := pc, ext := x } where
  undone := fun going _ unfilled => filled.undone (past going) claimed (phase unfilled)
  done := filled.done
  sized := filled.sized
  gone := by simp [here]

/-- A receive has its size before its request is done, and both before it is handed over. -/
theorem Move.filled (ok : v.Ok (cfg.place c) (cfg.status c)) (filled : v.Filled cfg c)
    (move : Move cfg c v w) : w.Filled cfg c := by
  have after := move.ok ok
  -- By the step: the size and the mark are stored last, by the completion alone.
  cases move with
  | begin standing empty => refine ⟨?_, ?_, ?_, ?_⟩ <;> simp [empty, ok.here (by simp [standing])]
  | claim standing =>
    have none := (ok.quiet (ok.unposted (by simp [standing]))).1
    refine ⟨?_, ?_, ?_, ?_⟩ <;> simp [standing, none]
  | answer standing answered some next =>
    have none := (ok.quiet (ok.unposted (by simp [standing]))).1
    refine ⟨fun _ _ _ e held => ?_, by simp [none], by simp [none],
      by simp [ok.here (by simp [standing])]⟩
    rw [eq_of_fresh (ok.fresh standing e held) answered (some e held)]
    rfl
  | store standing | stop standing | reject standing =>
    have unposted := ok.unposted (by simp [standing])
    have none := (ok.quiet unposted).1
    refine ⟨?_, ?_, ?_, ?_⟩ <;> simp [none, unposted]
  | fill standing | mark standing | fail standing | clearPending standing | post _ standing =>
    have early : v.call.afterPost = false := by rw [standing]; rfl
    refine filled.store ?_ (fun _ => .inl (by rw [standing]; rfl)) (by simp [standing])
      (fun _ => by simp [ok.phase_of_early early]) (.inl (ok.quiet (ok.unposted early)).1)
      (ok.here (by simp [standing]))
    exact fun _ => rfl
  | unmarked _ standing | accept _ standing =>
    have early : v.call.afterPost = false := by rw [standing]; rfl
    exact filled.move (fun _ => .inl (by rw [standing]; rfl)) (by simp [standing])
      (fun _ => by simp [ok.phase_of_early early]) (ok.here (by simp [standing]))
  | snapshot standing same _ =>
    exact filled.move (fun _ => .inl (by rw [standing]; rfl)) (by simp [standing])
      (fun _ => by simp [View.phase, armed, standing]) (ok.here (by simp [standing]))
  | arm standing =>
    refine ⟨fun _ _ _ => of_map (filled.undone (.inl (by rw [standing]; rfl)) ?_ ?_),
      fun isOver => of_map (filled.done isOver), fun isOver => of_map (filled.sized isOver),
      by simp [ok.here (by simp [standing])]⟩
    · simp [standing]
    · simp [View.phase, armed, standing]
  | publish standing | unseen standing | seen standing | second standing | completed standing =>
    refine filled.move (fun _ => .inl (by rw [standing]; rfl)) (by simp [standing]) ?_
      (ok.here (by simp [standing]))
    simp [View.phase, armed, standing]
  -- The handshake begins a completion only if none has begun.
  | first standing free =>
    refine ⟨fun _ _ _ => ?_, by simp, by simp, by simp [ok.here (by simp [standing])]⟩
    refine filled.undone (.inl (by rw [standing]; rfl)) (by simp [standing]) ?_
    rw [View.phase, ok.none_of_free free]
    split <;> simp
  | stampSec standing | stampNsec standing =>
    refine filled.store ?_ (by simp +contextual [CallPc.past]) (by simp [standing]) ?_
      (.inr ?_) (ok.here (by simp [standing]))
    · exact fun _ => rfl
    · simp [View.phase, armed, standing]
    · exact fun _ => rfl
  | report | announce | unattached | attached | callbackSecond | lateClaim | lateLeave =>
    exact { filled with }
  | callbackFirst standing free =>
    refine ⟨fun going claimed _ => filled.undone going claimed ?_, by simp, by simp, filled.gone⟩
    rw [View.phase, ok.none_of_free free]
    split <;> simp
  | giveUp _ _ empty => exact ⟨by simp [empty], by simp, by simp, filled.gone⟩
  | takeOver standing here =>
    have waiting := ok.phase_of_begun (by simp [standing])
    exact ⟨fun going claimed _ => of_map (filled.undone going claimed
      (by simp [waiting, standing])), by simp, by simp, by simp [here]⟩
  | partner standing | endSec standing | endNsec standing | copyStart standing =>
    obtain ⟨filling, here, _⟩ := ok.here_of_filling (by simp [standing])
    refine ⟨fun going claimed _ => of_map fun before kept => ?_, by simp, by simp, by simp [here]⟩
    have undone := filled.undone going claimed (by simp [filling]) before kept
    dsimp only [QEntry.withLifecycle]
    exact undone
  | size standing =>
    obtain ⟨filling, here, _⟩ := ok.here_of_filling (by simp [standing])
    refine ⟨fun going claimed _ => of_map (filled.undone going claimed (by simp [filling])),
      by simp, fun _ => of_map fun _ _ => ?_, by simp [here]⟩
    -- The callback has reported by now, since the completion has begun.
    exact ok.reported (ok.called (by simp [standing]))
  | done standing =>
    obtain ⟨filling, here, _⟩ := ok.here_of_filling (by simp [standing])
    exact ⟨fun _ _ unfilled => absurd (after.phase_of_begun (by simp)) unfilled,
      fun _ => of_map fun _ _ => rfl, fun _ => of_map (filled.sized (.inl standing)),
      by simp [here]⟩
  | lateAnswer standing | lateFill standing | lateNsec standing | lateSec standing =>
    have lost := ok.phase_of_begun (by simp [standing])
    refine ⟨fun going claimed _ => filled.undone going claimed ?_, by simp, by simp, filled.gone⟩
    simp [lost, standing]
  -- A row that is handed over is that of a completion that is over.
  | leave returned how still seen =>
    refine ⟨by simp, by simp, by simp, ?_⟩
    rintro r same emitted posted
    cases same
    rw [how] at emitted
    have isOver := finished_of_handsOver returned posted emitted
    have held := seen (how.trans emitted)
    exact ⟨filled.sized (.inr isOver) _ held, filled.done isOver _ held⟩

/-- A late entry is filled in at once from what the callback has reported. -/
theorem Move.lateFilled (ok : v.Ok (cfg.place c) (cfg.status c)) (late : v.LateFilled cfg c)
    (move : Move cfg c v w) : w.LateFilled cfg c := by
  cases move with
  | first standing free | callbackFirst standing free =>
    have here := ok.lateHere (by simp [ok.none_of_free free])
    exact ⟨by simp, by simp, by simp [here]⟩
  | takeOver standing | giveUp standing | partner standing | endSec standing | endNsec standing
  | copyStart standing | size standing | done standing =>
    have here := ok.lateHere (by simp [standing])
    exact ⟨by simp, by simp, by simp [here]⟩
  | lateClaim standing =>
    exact ⟨by simp [standing], by simp [standing], by simp⟩
  | lateAnswer standing answered some =>
    refine ⟨?_, by simp, by simp [ok.lateHere (by simp [standing])]⟩
    intro _ e held
    rw [eq_of_fresh (ok.lateFresh standing e held) answered (some e held)]
    rfl
  | lateFill standing now =>
    refine ⟨by simp, fun _ => of_map fun before kept => ?_,
      by simp [ok.lateHere (by simp [standing])]⟩
    exact ⟨ok.reported (ok.called (by simp [standing])), late.blank standing before kept⟩
  | lateNsec standing | lateSec standing =>
    exact ⟨by simp, fun _ => of_map (late.sized (by rw [standing]; rfl)),
      by simp [ok.lateHere (by simp [standing])]⟩
  | lateLeave written how seen =>
    refine ⟨by simp, by simp, ?_⟩
    rintro r same
    cases same
    exact late.sized (by rw [written]; rfl) _ seen
  | _ => exact { late with }

end Entries

end EduMpi.Ucx
