import EduMpi.Pml.UcxRecv
import EduMpi.Trace.AmtHolding

/-! A call of the UCX PML seen by itself: where its parts stand and what it holds. -/

namespace EduMpi.Ucx

open AmtRing (ClaimPc Leaving Pointer)

/-- The call is attaching its entry to its request. -/
def CallPc.attaching : CallPc → Bool
  | .snapshot | .arm | .publish | .check | .exchange | .completing => true
  | _ => false

/-- The call is where only a posted receive or the end of a call can be. -/
def CallPc.afterPost : CallPc → Bool
  | .snapshot | .arm | .publish | .check | .exchange | .completing | .stampSec | .stampNsec _
  | .returned => true
  | _ => false

/-- A thread is in the call. -/
def CallPc.active : CallPc → Bool
  | .idle | .returned => false
  | _ => true

/-- How far the entry of a call has come with its receive. -/
inductive Phase where
  /-- No receive waits on the entry. -/
  | unarmed
  | waiting
  /-- The completion has taken the entry over. -/
  | filling
  | filled
  /-- The entry was given up before the completion came. -/
  | lost
deriving DecidableEq, Repr

def CompletePc.phase : CompletePc → Phase
  | .none | .compareExchange => .waiting
  | .partner | .endSec | .endNsec _ | .copyStart | .size | .done => .filling
  | .finished => .filled
  | .claiming | .lateFill | .lateNsec _ | .lateSec _ | .wrote => .lost

/-- The completion was given a late entry. -/
def CompletePc.late : CompletePc → Bool
  | .lateFill | .lateNsec _ | .lateSec _ | .wrote => true
  | _ => false

/-- The lifecycle state an entry has in a phase. -/
def Phase.word : Phase → LcState
  | .unarmed => .none
  | .waiting => .pending
  | .filling | .filled => .finishing
  | .lost => .abandoned

/-- An entry whose ticket left in this phase was handed over. -/
def Phase.handsOver : Phase → Bool
  | .unarmed | .filled => true
  | _ => false

attribute [simp] CallPc.attaching CallPc.afterPost CallPc.active CompletePc.phase CompletePc.late
  Phase.word Phase.handsOver

/-- What one call can see: its parts, and what it and its completion hold in the ring. -/
structure View (C T : Type) where
  call : CallPc
  callback : CallbackPc
  complete : CompletePc
  ext : ReqExt T
  claim : ClaimPc
  entry : Option QEntry
  leaving : Option (Leaving (Claimant C))
  lateClaim : ClaimPc
  lateEntry : Option QEntry
  lateLeaving : Option (Leaving (Claimant C))

/-- A receive waits on the entry, or did. -/
def View.armed {C T : Type} (v : View C T) : Bool :=
  v.ext.posted && decide (v.call ≠ .snapshot ∧ v.call ≠ .arm)

def View.phase {C T : Type} (v : View C T) : Phase :=
  if v.armed then v.complete.phase else .unarmed

/-- What holds for a call in every state; the pointer is the one its claim was answered with. -/
structure View.Ok {C T : Type} (place : ClaimPc → Pointer T) (status : RecvStatus)
    (v : View C T) : Prop where
  unborn : v.call = .idle → v.claim = .unborn
  answered : v.call ≠ .idle → v.call ≠ .claiming → v.claim.answered = true
  attaching : v.call.attaching = true → v.ext.posted = true
  afterPost : v.ext.posted = true → v.call.afterPost = true
  quiet : v.ext.posted = false →
    v.complete = .none ∧ v.callback = .waiting ∧ v.ext.q = none
  ticket : v.ext.posted = true → v.call ≠ .snapshot → v.ext.ticket = v.claim.number
  pointer : ∀ q, v.ext.q = some q → q = place v.claim ∧ v.armed = true
  attached : v.complete ≠ .none → v.ext.q.isSome = true
  seen : v.callback = .exchange ∨ v.call = .check ∨ v.call = .exchange → v.ext.q.isSome = true
  finished : v.ext.finished = true ↔ v.complete ≠ .none
  reported : v.callback ≠ .waiting → v.ext.bytes = status.received
  called : v.ext.cbDone = true ∨ v.complete ≠ .none ∨ v.call = .exchange → v.callback ≠ .waiting
  lateUnborn : v.complete.phase ≠ .lost → v.lateClaim = .unborn
  lateAnswered : v.complete.late = true → v.lateClaim.answered = true
  /-- While the claim runs, the entry is as the reset leaves it. -/
  fresh : v.call = .claiming → ∀ e, v.entry = some e → v.claim.Fresh e
  word : v.call ≠ .claiming → ∀ e, v.entry = some e →
    e.lifecycle = edumpiLc v.claim.number v.phase.word
  /-- The ticket of a call in progress has not left. -/
  here : v.call ≠ .returned → v.leaving = none
  left : ∀ r, v.leaving = some r → r.emitted = v.phase.handsOver ∧ v.phase ≠ .filling
  lost : v.phase = .lost → v.claim = .scratch ∨ v.leaving.isSome = true
  lateFresh : v.complete = .claiming → ∀ e, v.lateEntry = some e → v.lateClaim.Fresh e
  lateWord : v.complete ≠ .claiming → ∀ e, v.lateEntry = some e →
    e.lifecycle = edumpiLc v.lateClaim.number .none
  lateHere : v.complete ≠ .wrote → v.lateLeaving = none
  lateLeft : ∀ r, v.lateLeaving = some r → r.emitted = true

/-- What a store makes of every entry holds of the entry it leaves. -/
theorem of_map {entry : Option QEntry} {change : QEntry → QEntry} {P : QEntry → Prop}
    (all : ∀ e, entry = some e → P (change e)) : ∀ e, entry.map change = some e → P e := by
  intro e held
  obtain ⟨before, kept, rfl⟩ := Option.map_eq_some_iff.mp held
  exact all before kept

/-- An entry that was just given to its claimant is zero but for the ticket in its word. -/
theorem eq_of_fresh {pc : ClaimPc} {e : QEntry} (fresh : pc.Fresh e) (answered : pc.answered = true)
    (ticketed : pc ≠ .scratch) : e = QEntry.zero.withLifecycle (edumpiLc pc.number .none) := by
  cases pc with
  | slot h => exact fresh
  | scratch => exact absurd rfl ticketed
  | _ => cases answered

theorem eq_of_fresh_slot {pc : ClaimPc} {e : QEntry} {h : Nat} (fresh : pc.Fresh e)
    (claim : pc = .slot h) : e = QEntry.zero.withLifecycle (edumpiLc (h + 1) .none) := by
  subst claim
  exact fresh

/-- A claim that was answered leaves the ticket in the lifecycle word. -/
theorem word_of_fresh {pc : ClaimPc} {e : QEntry} (fresh : pc.Fresh e)
    (answered : pc.answered = true) (ticketed : pc ≠ .scratch) :
    e.lifecycle = edumpiLc pc.number .none :=
  congrArg QEntry.lifecycle (eq_of_fresh fresh answered ticketed)

section Moves

variable {C T : Type} {place : ClaimPc → Pointer T} {status : RecvStatus} {v : View C T}

/-- Before the post there is no receive. -/
theorem View.Ok.unposted (ok : v.Ok place status) (early : v.call.afterPost = false) :
    v.ext.posted = false := by
  cases posted : v.ext.posted with
  | false => rfl
  | true =>
    rw [ok.afterPost posted] at early
    cases early

/-- A completion works for an attached receive. -/
theorem View.Ok.armed_of_begun (ok : v.Ok place status) (begun : v.complete ≠ .none) :
    v.armed = true := by
  obtain ⟨q, pointer⟩ := Option.isSome_iff_exists.mp (ok.attached begun)
  exact (ok.pointer q pointer).2

/-- A receive that is not armed is not attached. -/
theorem View.Ok.q_of_unarmed (ok : v.Ok place status) (unarmed : v.armed = false) :
    v.ext.q = none := by
  by_contra other
  obtain ⟨q, pointer⟩ := Option.ne_none_iff_exists'.mp other
  simp [(ok.pointer q pointer).2] at unarmed

/-- Only a posted receive has a callback or is attached. -/
theorem View.Ok.posted_of_busy (ok : v.Ok place status)
    (busy : v.callback ≠ .waiting ∨ v.ext.q ≠ none) : v.ext.posted = true := by
  by_contra unposted
  simp [ok.quiet (by simpa using unposted)] at busy

theorem View.posted_of_armed (armed : v.armed = true) : v.ext.posted = true := by
  simp only [View.armed, Bool.and_eq_true] at armed
  exact armed.1

theorem View.past_of_armed (armed : v.armed = true) : v.call ≠ .snapshot ∧ v.call ≠ .arm := by
  simp only [View.armed, Bool.and_eq_true, decide_eq_true_eq] at armed
  exact armed.2

theorem View.phase_of_unposted (unposted : v.ext.posted = false) : v.phase = .unarmed := by
  simp [View.phase, View.armed, unposted]

/-- A call that nobody has made. -/
theorem View.ok_initial : View.Ok place status (C := C)
    ⟨.idle, .waiting, .none, edumpiUcxReqExtReset T, .unborn, none, none, .unborn, none, none⟩ := by
  constructor <;> simp [edumpiUcxReqExtReset, View.phase, View.armed]

section Ok

variable (ok : v.Ok place status) {entry : Option QEntry} {r : Leaving (Claimant C)}
  {pc : CompletePc}

include ok

/-- A completion that has begun decides the phase of its entry. -/
theorem View.Ok.phase_of_begun (begun : v.complete ≠ .none) : v.phase = v.complete.phase :=
  if_pos (ok.armed_of_begun begun)

/-- A completion that may begin has not begun. -/
theorem View.Ok.none_of_free (free : v.ext.finished = false) : v.complete = .none := by
  by_contra begun
  simp [ok.finished.mpr begun] at free

/-- Before its post, a call has an entry on which no receive waits. -/
theorem View.Ok.phase_of_early (early : v.call.afterPost = false) : v.phase = .unarmed :=
  View.phase_of_unposted (ok.unposted early)

/-- A thread begins the call. -/
theorem View.Ok.begin (standing : v.call = .idle)
    (empty : v.entry = none) : View.Ok place status { v with call := .claiming } := by
  -- Nothing was posted before the claim, so neither side has anything of this receive yet.
  have unposted := ok.unposted (by simp [standing])
  have here := ok.here (by simp [standing])
  exact {
    ok with
    unborn := by simp
    answered := by simp
    attaching := by simp
    afterPost := by simp [unposted]
    ticket := by simp [unposted]
    pointer := by simp [(ok.quiet unposted).2.2]
    seen := by simp [(ok.quiet unposted).2.1]
    called := fun past => ok.called (by simpa [standing] using past)
    fresh := by simp [empty]
    word := by simp
    here := fun _ => here
    left := by simp [here]
    lost := by simp [View.phase, View.armed, unposted] }

/-- The call moves on, and neither its receive nor its entry is concerned. -/
theorem View.Ok.moveCall {pc : CallPc} (active : v.call.active = true)
    (started : pc ≠ .idle ∧ pc ≠ .claiming) (answered : v.claim.answered = true)
    (attaching : pc.attaching = true → v.ext.posted = true)
    (afterPost : v.ext.posted = true → pc.afterPost = true)
    (armed : v.ext.posted = true → v.call ≠ .snapshot ∧ v.call ≠ .arm ∧ pc ≠ .snapshot ∧ pc ≠ .arm)
    (seen : pc = .check ∨ pc = .exchange → v.ext.q.isSome = true)
    (called : pc = .exchange → v.callback ≠ .waiting)
    (word : ∀ e, v.entry = some e → e.lifecycle = edumpiLc v.claim.number v.phase.word) :
    View.Ok place status { v with call := pc } := by
  -- Whether the entry is armed is read off the call only while the request is being prepared.
  have same : View.armed { v with call := pc } = v.armed := by
    unfold View.armed
    cases posted : v.ext.posted with
    | false => rfl
    | true => simp [armed posted]
  have phase : View.phase { v with call := pc } = v.phase := by
    unfold View.phase
    rw [same]
  have here : v.leaving = none := ok.here (by rintro returned; simp [returned] at active)
  -- Only the fields that look at the call's place need an argument.
  exact {
    ok with
    unborn := fun idle => absurd idle started.1
    answered := fun _ _ => answered
    attaching := attaching
    afterPost := afterPost
    ticket := fun posted _ => ok.ticket posted (armed posted).1
    pointer := fun q at_ => ⟨(ok.pointer q at_).1, same.trans (ok.pointer q at_).2⟩
    seen := fun standing => standing.elim (fun callback => ok.seen (.inl callback)) seen
    called := by
      rintro (done | complete | exchange)
      · exact ok.called (.inl done)
      · exact ok.called (.inr (.inl complete))
      · exact called exchange
    fresh := fun claiming => absurd claiming started.2
    word := by
      rw [phase]
      exact fun _ => word
    here := fun _ => here
    left := fun r gone => by simp [here] at gone
    lost := by
      rw [phase]
      exact ok.lost }

/-- Before the post, a call moves on without further conditions. -/
theorem View.Ok.moveEarly {pc : CallPc} (early : v.call.afterPost = false)
    (active : v.call.active = true) (started : pc ≠ .idle ∧ pc ≠ .claiming)
    (answered : v.claim.answered = true) (next : pc.attaching = false)
    (word : ∀ e, v.entry = some e → e.lifecycle = edumpiLc v.claim.number .none) :
    View.Ok place status { v with call := pc } := by
  -- Before the request is posted there is no other side, so that most conditions hold vacuously.
  have unposted := ok.unposted early
  refine ok.moveCall active started answered ?_ ?_ ?_ ?_ ?_ ?_
  · rw [next]
    simp
  · simp [unposted]
  · simp [unposted]
  · rintro (rfl | rfl) <;> cases next
  · rintro rfl
    cases next
  · rw [ok.phase_of_early early]
    exact word

theorem View.Ok.word_of_early (early : v.call.afterPost = false)
    (claimed : v.call ≠ .claiming) {e : QEntry} (held : v.entry = some e) :
    e.lifecycle = edumpiLc v.claim.number .none := by
  simpa [ok.phase_of_early early] using ok.word claimed e held

/-- Plain stores of the call or of the completion in place change no lifecycle word. -/
theorem View.Ok.store (claimed : v.call ≠ .claiming) (change : QEntry → QEntry) :
    View.Ok place status
      { v with entry := v.entry.map fun e => (change e).withLifecycle e.lifecycle } :=
  { ok with
    fresh := fun claiming => absurd claiming claimed
    word := fun _ => of_map (ok.word claimed) }

/-- The same for the stores into a late entry. -/
theorem View.Ok.lateStore (claimed : v.complete ≠ .claiming) (change : QEntry → QEntry) :
    View.Ok place status
      { v with lateEntry := v.lateEntry.map fun e => (change e).withLifecycle e.lifecycle } :=
  { ok with
    lateFresh := fun claiming => absurd claiming claimed
    lateWord := fun _ => of_map (ok.lateWord claimed) }

/-- The transport has posted the receive. -/
theorem View.Ok.post (standing : v.call = .post) :
    View.Ok place status { v with ext := { v.ext with posted := true }, call := .snapshot } := by
  -- Up to here the call was alone with its entry.
  have unposted := ok.unposted (by simp [standing])
  obtain ⟨complete, callback, q⟩ := ok.quiet unposted
  have here := ok.here (by simp [standing])
  exact {
    ok with
    unborn := by simp
    answered := fun _ _ => ok.answered (by simp [standing]) (by simp [standing])
    attaching := fun _ => rfl
    afterPost := fun _ => rfl
    quiet := by simp
    ticket := by simp
    pointer := by simp [q]
    seen := by simp [callback]
    called := fun past => ok.called (by simpa [standing] using past)
    fresh := by simp
    -- The word is still the one the claim left: posting does not touch the entry.
    word := by
      intro _ e held
      simpa [View.phase, View.armed] using
        ok.word_of_early (by simp [standing]) (by simp [standing]) held
    here := fun _ => here
    left := by simp [here]
    lost := by simp [View.phase, View.armed] }

/-- The snapshot takes the number of the entry. -/
theorem View.Ok.snapshot (standing : v.call = .snapshot) {x : ReqExt T}
    (same : x.q = v.ext.q ∧ x.bytes = v.ext.bytes ∧ x.cbDone = v.ext.cbDone
      ∧ x.finished = v.ext.finished ∧ x.posted = v.ext.posted)
    (number : x.ticket = v.claim.number) :
    View.Ok place status { v with ext := x, call := .arm } := by
  have posted : v.ext.posted = true := ok.attaching (by simp [standing])
  obtain ⟨q, bytes, cbDone, finished, still⟩ := same
  -- The callback may already have run, but without the pointer it cannot reach the entry.
  have unarmed : v.armed = false := by simp [View.armed, standing]
  have noPointer := ok.q_of_unarmed unarmed
  have here := ok.here (by simp [standing])
  exact {
    ok with
    unborn := by simp
    answered := fun _ _ => ok.answered (by simp [standing]) (by simp [standing])
    attaching := fun _ => still.trans posted
    afterPost := fun _ => rfl
    quiet := by simp [still, posted]
    ticket := fun _ _ => number
    pointer := by simp [q, noPointer]
    attached := fun other => by simpa [q] using ok.attached other
    seen := fun past => q ▸ ok.seen (by simpa [standing] using past)
    finished := by simpa [finished] using ok.finished
    reported := by simpa [bytes] using ok.reported
    called := fun past => ok.called (by simpa [standing, cbDone] using past)
    fresh := by simp
    -- The snapshot does not touch the lifecycle either.
    word := by
      intro _ e held
      have before := ok.word (by simp [standing]) e held
      rw [show v.phase = .unarmed by simp [View.phase, unarmed]] at before
      simpa [View.phase, View.armed] using before
    here := fun _ => here
    left := by simp [here]
    lost := by simp [View.phase, View.armed] }

/-- From here on a receive waits on the entry. -/
theorem View.Ok.arm (standing : v.call = .arm) :
    View.Ok place status
      { v with
        call := .publish
        entry := v.entry.map fun e => e.withLifecycle (edumpiLc v.ext.ticket .pending) } := by
  have posted : v.ext.posted = true := ok.attaching (by simp [standing])
  have noPointer := ok.q_of_unarmed (by simp [View.armed, standing])
  -- Completion needs the pointer, which is only published after this store.
  have complete : v.complete = .none := by
    by_contra other
    have attached := ok.attached other
    simp [noPointer] at attached
  have here := ok.here (by simp [standing])
  exact {
    ok with
    unborn := by simp
    answered := fun _ _ => ok.answered (by simp [standing]) (by simp [standing])
    attaching := fun _ => posted
    afterPost := fun _ => rfl
    ticket := fun _ _ => ok.ticket posted (by simp [standing])
    pointer := by simp [noPointer]
    seen := fun past => ok.seen (by simpa [standing] using past)
    called := fun past => ok.called (by simpa [standing] using past)
    fresh := by simp
    -- This is the store that turns the entry into a pending one, with the call's own ticket.
    word := fun _ => of_map fun _ _ => by
      simp [ok.ticket posted (by simp [standing]), View.phase, View.armed, posted, complete,
        CompletePc.phase, Phase.word]
    here := fun _ => here
    left := by simp [here]
    lost := by simp [View.phase, View.armed, posted, complete] }

/-- The callback can see the entry from here on. -/
theorem View.Ok.publish (standing : v.call = .publish) :
    View.Ok place status
      { v with ext := { v.ext with q := some (place v.claim) }, call := .check } := by
  have posted : v.ext.posted = true := ok.attaching (by simp [standing])
  -- The pointer itself is not part of the phase.
  have phase : View.phase { v with ext := { v.ext with q := some (place v.claim) }, call := .check }
      = v.phase := by
    simp [View.phase, View.armed, standing]
  have here := ok.here (by simp [standing])
  exact {
    ok with
    unborn := by simp
    answered := fun _ _ => ok.answered (by simp [standing]) (by simp [standing])
    attaching := fun _ => posted
    afterPost := fun _ => rfl
    quiet := by simp [posted]
    ticket := fun _ _ => ok.ticket posted (by simp [standing])
    -- From now on the callback finds this claim's place, already armed.
    pointer := by
      rintro q same
      cases same
      simp [View.armed, posted]
    attached := fun _ => rfl
    seen := fun _ => rfl
    finished := ok.finished
    called := fun past => ok.called (by simpa [standing] using past)
    fresh := by simp
    word := by
      rw [phase]
      exact fun _ => ok.word (by simp [standing])
    here := fun _ => here
    left := by simp [here]
    lost := by
      rw [phase]
      exact ok.lost }

/-- One of the two sides gets to complete the entry. -/
theorem View.Ok.beginComplete (first : v.ext.finished = false)
    (attached : v.ext.q.isSome = true) (called : v.callback ≠ .waiting) :
    View.Ok place status
      { v with ext := { v.ext with finished := true }, complete := .compareExchange } := by
  have none := ok.none_of_free first
  have posted := ok.posted_of_busy (.inl called)
  -- The phase stays waiting until the exchange has been won.
  have phase : View.phase { v with
      ext := { v.ext with finished := true }, complete := .compareExchange } = v.phase := by
    rw [View.phase, View.phase, none]
    rfl
  exact {
    ok with
    quiet := by simp [posted]
    attached := fun _ => attached
    finished := by simp
    called := fun _ => called
    -- No late claim is born yet: the exchange decides whether one is needed.
    lateUnborn := fun _ => ok.lateUnborn (by simp [none])
    lateAnswered := by simp
    word := by
      rw [phase]
      exact ok.word
    left := by
      rw [phase]
      exact ok.left
    lost := by
      rw [phase]
      exact ok.lost
    lateFresh := by simp
    lateWord := fun _ => ok.lateWord (by simp [none])
    lateHere := fun _ => ok.lateHere (by simp [none]) }

/-- The call of a posted receive is past its claim. -/
theorem View.Ok.claimed_of_posted (posted : v.ext.posted = true) :
    v.call ≠ .idle ∧ v.call ≠ .claiming := by
  have after := ok.afterPost posted
  constructor <;> intro standing <;> simp [standing] at after

theorem View.Ok.claimed_of_armed (armed : v.armed = true) : v.call ≠ .claiming :=
  (ok.claimed_of_posted (View.posted_of_armed armed)).2

/-- A completion that has begun goes on; its phase is the one of the entry. -/
theorem View.Ok.advance (begun : v.complete ≠ .none) (next : pc ≠ .none)
    (unfinished : v.complete ≠ .wrote) (lateUnborn : pc.phase ≠ .lost → v.lateClaim = .unborn)
    (lateAnswered : pc.late = true → v.lateClaim.answered = true)
    (lateFresh : pc = .claiming → ∀ e, v.lateEntry = some e → v.lateClaim.Fresh e)
    (lateWord : pc ≠ .claiming → ∀ e, v.lateEntry = some e →
      e.lifecycle = edumpiLc v.lateClaim.number .none)
    (word : ∀ e, entry = some e → e.lifecycle = edumpiLc v.claim.number pc.phase.word)
    (left : ∀ r, v.leaving = some r → r.emitted = pc.phase.handsOver ∧ pc.phase ≠ .filling)
    (lost : pc.phase = .lost → v.claim = .scratch ∨ v.leaving.isSome = true) :
    View.Ok place status { v with complete := pc, entry := entry } := by
  -- Completion has begun, so the phase is the one of the completing side.
  have armed := ok.armed_of_begun begun
  have phase : View.phase { v with complete := pc, entry := entry } = pc.phase := if_pos armed
  exact {
    ok with
    quiet := fun unposted => absurd (ok.quiet unposted).1 begun
    attached := fun _ => ok.attached begun
    finished := by simpa [next] using ok.finished.mpr begun
    called := fun _ => ok.called (.inr (.inl begun))
    lateUnborn := lateUnborn
    lateAnswered := lateAnswered
    -- An armed entry was claimed long ago, so its call is not claiming any more.
    fresh := fun claiming => absurd claiming (ok.claimed_of_armed armed)
    word := fun _ => phase ▸ word
    left := phase ▸ left
    lost := phase ▸ lost
    lateFresh := lateFresh
    lateWord := lateWord
    lateHere := fun _ => ok.lateHere unfinished }

/-- The completion goes on in the same phase. -/
theorem View.Ok.moveComplete (phase : pc.phase = v.complete.phase) (begun : v.complete ≠ .none)
    (next : pc ≠ .none) (late : pc.late = true → v.lateClaim.answered = true)
    (claimed : pc ≠ .claiming)
    (word : ∀ e, v.lateEntry = some e → e.lifecycle = edumpiLc v.lateClaim.number .none)
    (unfinished : v.complete ≠ .wrote) : View.Ok place status { v with complete := pc } := by
  have armed := ok.armed_of_begun begun
  -- Both places have one phase, so what is said of the phase carries across.
  have same : v.phase = pc.phase := (ok.phase_of_begun begun).trans phase.symm
  refine ok.advance begun next unfinished (phase ▸ ok.lateUnborn) late
    (fun claiming => absurd claiming claimed) (fun _ => word) ?_ (same ▸ ok.left) (same ▸ ok.lost)
  exact same ▸ ok.word (ok.claimed_of_armed armed)

/-- The completion takes over the entry that waits for it. -/
theorem View.Ok.takeOver (standing : v.complete = .compareExchange) (here : v.leaving = none) :
    View.Ok place status
      { v with
        complete := .partner
        entry := v.entry.map fun e => e.withLifecycle (edumpiLc v.ext.ticket .finishing) } := by
  have armed := ok.armed_of_begun (by simp [standing])
  refine ok.advance (by simp [standing]) (by simp) (by simp [standing])
    (fun _ => ok.lateUnborn (by simp [standing])) (by simp)
    (by simp) (fun _ => ok.lateWord (by simp [standing])) (of_map fun _ _ => ?_)
    (by simp [here]) (by simp)
  -- The exchange writes the ticket of the request, which is the one of the claim.
  rw [← ok.ticket (View.posted_of_armed armed) (View.past_of_armed armed).1]
  rfl

/-- The completion finds the entry given up. -/
theorem View.Ok.giveUp (standing : v.complete = .compareExchange)
    (gone : v.claim = .scratch ∨ v.leaving.isSome = true) (empty : v.entry = none)
    (fresh : ∀ e, v.lateEntry = some e → v.lateClaim.Fresh e) :
    View.Ok place status { v with complete := .claiming } := by
  have begun : v.complete ≠ .none := by simp [standing]
  -- The entry was still waiting when the drain took it, which is what its leaving says.
  have before : v.phase = .waiting :=
    (ok.phase_of_begun begun).trans (by rw [standing]; rfl)
  refine ok.advance begun (by simp) (by simp [standing]) (by simp)
    (by simp) (fun _ => fresh) (by simp) (by simp [empty]) (fun r left => ?_)
    fun _ => gone
  have was := (ok.left r left).1
  rw [before] at was
  exact ⟨was, by simp⟩

/-- The entry is complete. -/
theorem View.Ok.finish (standing : v.complete = .done) :
    View.Ok place status { v with complete := .finished } := by
  have begun : v.complete ≠ .none := by simp [standing]
  have armed := ok.armed_of_begun begun
  have before : v.phase = .filling := (ok.phase_of_begun begun).trans (by rw [standing]; rfl)
  refine ok.advance begun (by simp) (by simp [standing])
    (fun _ => ok.lateUnborn (by simp [standing])) (by simp)
    (by simp) (fun _ => ok.lateWord (by simp [standing])) (fun e held => ?_)
    -- An entry that is being filled has not left: the drain does not pass it.
    (fun r left => absurd before (ok.left r left).2) (by simp)
  rw [ok.word (ok.claimed_of_armed armed) e held, before]
  rfl

/-- The callback stores what it knows. -/
theorem View.Ok.report (posted : v.ext.posted = true)
    {source : Int32} (pc : CallbackPc) (next : pc ≠ .waiting) (looking : pc ≠ .exchange) :
    View.Ok place status
      { v with ext := { v.ext with bytes := status.received, source := source }, callback := pc } where
  __ := ok
  quiet := by simp [posted]
  attached := ok.attached
  finished := ok.finished
  ticket := ok.ticket
  pointer := ok.pointer
  afterPost := ok.afterPost
  attaching := ok.attaching
  -- The callback does not look at the pointer yet; the call may.
  seen := by
    rintro (callback | other)
    · exact absurd callback looking
    · exact ok.seen (.inr other)
  reported := fun _ => rfl
  called := fun _ => next

/-- The callback goes on; it announces itself and may see the entry. -/
theorem View.Ok.moveCallback (begun : v.callback ≠ .waiting)
    {cbDone : Bool} (pc : CallbackPc) (next : pc ≠ .waiting)
    (looking : pc = .exchange → v.ext.q.isSome = true) :
    View.Ok place status { v with ext := { v.ext with cbDone := cbDone }, callback := pc } := by
  -- A callback that has begun belongs to a posted request.
  have posted := ok.posted_of_busy (.inl begun)
  exact {
    ok with
    quiet := by simp [posted]
    attached := ok.attached
    finished := ok.finished
    ticket := ok.ticket
    pointer := ok.pointer
    afterPost := ok.afterPost
    attaching := ok.attaching
    seen := by
      rintro (callback | other)
      · exact looking callback
      · exact ok.seen (.inr other)
    reported := fun _ => ok.reported begun
    called := fun _ => next }

/-- The claim of the call makes a step. -/
theorem View.Ok.claim (standing : v.call = .claiming) {pc : ClaimPc}
    (fresh : ∀ e, entry = some e → pc.Fresh e) :
    View.Ok place status { v with claim := pc, entry := entry, leaving := none } := by
  -- Nobody else knows of the entry before the request is posted.
  have unposted := ok.unposted (by simp [standing])
  exact {
    ok with
    unborn := by simp [standing]
    answered := by simp [standing]
    ticket := by simp [unposted]
    pointer := by simp [(ok.quiet unposted).2.2]
    fresh := fun _ => fresh
    word := by simp [standing]
    here := fun _ => rfl
    left := by simp
    lost := by simp [View.phase, View.armed, unposted] }

/-- The claim of a late entry makes a step. -/
theorem View.Ok.lateClaiming (standing : v.complete = .claiming) {pc : ClaimPc}
    (fresh : ∀ e, entry = some e → pc.Fresh e) :
    View.Ok place status { v with lateClaim := pc, lateEntry := entry, lateLeaving := none } where
  __ := ok
  lateUnborn := by simp [standing]
  lateAnswered := by simp [standing]
  lateFresh := fun _ => fresh
  lateWord := by simp [standing]
  lateHere := fun _ => rfl
  lateLeft := by simp

/-- The ticket of the call leaves. -/
theorem View.Ok.leave (returned : v.call = .returned) (how : r.emitted = v.phase.handsOver)
    (still : v.phase ≠ .filling) :
    View.Ok place status { v with entry := none, leaving := some r } where
  __ := ok
  fresh := by simp
  word := by simp
  here := fun other => absurd returned other
  -- The entry leaves as the phase says, and a second leaving would be this one.
  left := by
    rintro r' same
    cases same
    exact ⟨how, still⟩
  lost := fun _ => .inr rfl

/-- The ticket of a late entry leaves. -/
theorem View.Ok.lateLeave (written : v.complete = .wrote) (how : r.emitted = true) :
    View.Ok place status { v with lateEntry := none, lateLeaving := some r } where
  __ := ok
  lateFresh := by simp
  lateWord := by simp
  lateHere := fun other => absurd written other
  lateLeft := by
    rintro r' same
    cases same
    exact how

end Ok

end Moves

end EduMpi.Ucx
