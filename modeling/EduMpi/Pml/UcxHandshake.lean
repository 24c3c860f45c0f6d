import EduMpi.Pml.UcxView

/-! The two sides of one UCX receive, memory access by memory access: who completes its entry. -/

namespace EduMpi.Ucx.Handshake

open Machine List

/-- The next access of `edumpi_ucx_attach_entry`, down to the body of the completion. -/
inductive AttachPc where
  | loadLifecycle | storeTicket | storePartner | storeCommunicator | storeArea | arm | publish
  | loadDone | loadBytes | loadSource | exchange | body | done
deriving DecidableEq, Repr

/-- The next access of `edumpi_ucx_recv_finished`, down to the body of the completion. -/
inductive FinishedPc where
  | storeBytes | storeSource | storeDone | loadQ | exchange | body | done
deriving DecidableEq, Repr

/-- What the body of a completion was run with. -/
structure Run where
  ticket : Nat
  bytes : Int64
  source : Int32
deriving DecidableEq, Repr

/-- The request, the entry, the registers of the attaching side, and the bodies run so far. -/
structure State (T : Type) where
  x : ReqExt T
  item : QEntry
  attach : AttachPc
  finished : FinishedPc
  word : Nat
  bytes : Int64
  source : Int32
  runs : List Run

variable {C T : Type}

/-- One access of the call; its entry is written by nobody else, so a field is copied in one. -/
def edumpiUcxAttachEntry (q : AmtRing.Pointer T) (s : State T) : Option (State T) :=
  let x := s.x
  match s.attach with
  | .loadLifecycle => some { s with word := s.item.lifecycle, attach := .storeTicket }
  | .storeTicket =>
    some { s with x := { x with ticket := lcTicket s.word }, attach := .storePartner }
  | .storePartner =>
    some { s with x := { x with partner := s.item.partnerrank }, attach := .storeCommunicator }
  | .storeCommunicator =>
    some { s with x := { x with communicator := s.item.communicator }, attach := .storeArea }
  | .storeArea =>
    some { s with x := { x with area := s.item.communicationArea }, attach := .arm }
  | .arm =>
    some { s with item := s.item.withLifecycle (edumpiLc x.ticket .pending), attach := .publish }
  | .publish => some { s with x := { x with q := some q }, attach := .loadDone }
  | .loadDone => some { s with attach := if x.cbDone then .loadBytes else .done }
  | .loadBytes => some { s with bytes := x.bytes, attach := .loadSource }
  | .loadSource => some { s with source := x.source, attach := .exchange }
  | .exchange =>
    some { s with
      x := { x with finished := true }, attach := if x.finished then .done else .body }
  | .body =>
    some { s with runs := s.runs ++ [⟨x.ticket, s.bytes, s.source⟩], attach := .done }
  | .done => none

/-- One access of the callback. -/
def edumpiUcxRecvFinished (status : RecvStatus) (s : State T) : Option (State T) :=
  let x := s.x
  match s.finished with
  | .storeBytes =>
    some { s with x := { x with bytes := status.received }, finished := .storeSource }
  | .storeSource =>
    some { s with x := { x with source := status.sender }, finished := .storeDone }
  | .storeDone => some { s with x := { x with cbDone := true }, finished := .loadQ }
  | .loadQ => some { s with finished := if x.q.isSome then .exchange else .done }
  | .exchange =>
    some { s with
      x := { x with finished := true }, finished := if x.finished then .done else .body }
  | .body =>
    some { s with
      runs := s.runs ++ [⟨x.ticket, status.received, status.sender⟩], finished := .done }
  | .done => none

/-- Which of the two sides goes on. -/
inductive Side where
  | attach | finished

/-- One access of one of the sides. -/
def step (q : AmtRing.Pointer T) (status : RecvStatus) (s : State T) : Side → Option (State T)
  | .attach => edumpiUcxAttachEntry q s
  | .finished => edumpiUcxRecvFinished status s

/-- Before both sides, with a request whose private area was reset. -/
def initial (item : QEntry) : State T where
  x := edumpiUcxReqExtReset T
  item := item
  attach := .loadLifecycle
  finished := .storeBytes
  word := 0
  bytes := 0
  source := 0
  runs := []

/-- How often the body was entered. -/
def State.entered (s : State T) : Nat :=
  s.runs.length + (if s.attach = .body then 1 else 0) + (if s.finished = .body then 1 else 0)

/-- What was stored is what the other side reads, and one of the sides sees the other. -/
structure Inv (status : RecvStatus) (number : Nat) (s : State T) : Prop where
  lifecycle : s.attach = .loadLifecycle → lcTicket s.item.lifecycle = number
  word : s.attach = .storeTicket → lcTicket s.word = number
  ticket : 2 ≤ s.attach.ctorIdx → s.x.ticket = number
  published : s.x.q.isSome = true ↔ 7 ≤ s.attach.ctorIdx
  bytes : 1 ≤ s.finished.ctorIdx → s.x.bytes = status.received
  source : 2 ≤ s.finished.ctorIdx → s.x.source = status.sender
  reported : s.x.cbDone = true ↔ 3 ≤ s.finished.ctorIdx
  seen : 8 ≤ s.attach.ctorIdx → s.attach ≠ .done → s.x.cbDone = true
  found : s.finished = .exchange ∨ s.finished = .body → s.x.q.isSome = true
  loadedBytes : 9 ≤ s.attach.ctorIdx → s.attach ≠ .done → s.bytes = status.received
  loadedSource : 10 ≤ s.attach.ctorIdx → s.attach ≠ .done → s.source = status.sender
  entered : s.entered = if s.x.finished then 1 else 0
  runs : ∀ run ∈ s.runs, run = ⟨number, status.received, status.sender⟩
  /-- A side that did not see the other is seen by it. -/
  covered : s.attach = .done → s.finished = .done → s.x.finished = true

section Steps

variable {q : AmtRing.Pointer T} {status : RecvStatus} {number : Nat} {s t : State T}

/-- An access of the call keeps what holds of both sides. -/
theorem Inv.attach (inv : Inv status number s) (taken : edumpiUcxAttachEntry q s = some t) :
    Inv status number t := by
  cases inv
  unfold edumpiUcxAttachEntry at taken
  -- One case for each place; what holds from some place on is told by the place's number.
  cases at_ : s.attach <;> simp only [at_, Option.some.injEq, reduceCtorEq] at taken <;> subst taken
  all_goals constructor <;> grind [State.entered, AttachPc.ctorIdx, FinishedPc.ctorIdx]

/-- So does one of the callback. -/
theorem Inv.finished (inv : Inv status number s)
    (taken : edumpiUcxRecvFinished status s = some t) : Inv status number t := by
  cases inv
  unfold edumpiUcxRecvFinished at taken
  cases at_ : s.finished <;> simp only [at_, Option.some.injEq, reduceCtorEq] at taken
    <;> subst taken
  all_goals constructor <;> grind [State.entered, AttachPc.ctorIdx, FinishedPc.ctorIdx]

theorem inv_initial (status : RecvStatus) (item : QEntry) :
    Inv status (lcTicket item.lifecycle) (initial item : State T) := by
  constructor <;> simp [initial, edumpiUcxReqExtReset, State.entered, AttachPc.ctorIdx,
    FinishedPc.ctorIdx]

end Steps

/-- When both sides are through, the body was run once, with what the callback reported and the
ticket of the entry. -/
theorem completed_once (q : AmtRing.Pointer T) (status : RecvStatus) (item : QEntry)
    (sides : List Side) (t : State T) (ran : exec (step q status) (initial item) sides = some t)
    (attached : t.attach = .done) (finished : t.finished = .done) :
    t.runs = [⟨lcTicket item.lifecycle, status.received, status.sender⟩] := by
  have inv : Inv status (lcTicket item.lifecycle) t := by
    refine exec_keeps (fun s side u inv taken => ?_) (inv_initial status item) ran
    cases side with
    | attach => exact inv.attach taken
    | finished => exact inv.finished taken
  -- Neither side is inside the body, so the one entry is a run that is over.
  have once : t.runs.length = 1 := by
    simpa [State.entered, attached, finished, inv.covered attached finished] using inv.entered
  obtain ⟨run, only⟩ := length_eq_one_iff.mp once
  rw [only, inv.runs run (by rw [only]; exact mem_singleton_self run)]

/-- The callback comes last and completes the entry with ticket seven. -/
theorem completed_once_late :
    let sides := replicate 8 Side.attach ++ replicate 6 Side.finished
    ∃ t, exec (step (T := Unit) (.slot 0) ⟨false, 100, 3⟩) (initial (QEntry.zero.withLifecycle 28))
        sides = some t
      ∧ t.runs = [⟨7, 100, 3⟩] := by
  intro sides
  exact reaches_of_decide (P := fun t => t.attach = .done ∧ t.finished = .done)
    (by decide +kernel) fun t ran done => completed_once _ _ _ _ t ran done.1 done.2

section Refinement

variable [DecidableEq C] [DecidableEq T]

/-- Where the attaching side stands when the call of the whole program stands here. -/
def AttachPc.of : CallPc → AttachPc
  | .snapshot => .loadLifecycle
  | .arm => .arm
  | .publish => .publish
  | .check => .loadDone
  | .exchange => .exchange
  | .completing => .body
  | _ => .done

/-- Where the callback stands when the callback of the whole program stands here. -/
def FinishedPc.of : CallbackPc → FinishedPc
  | .waiting => .storeBytes
  | .storeDone => .storeDone
  | .loadQ => .loadQ
  | .exchange => .exchange
  | .ran => .done

/-- The two sides of a receive, as they stand in the whole program. -/
structure Shows (cfg : Config C T) (c : C) (q : AmtRing.Pointer T) (s : Ucx.State C T)
    (h : State T) : Prop where
  x : h.x = { s.ext c with posted := false }
  attach : h.attach = .of (s.calls c)
  finished : h.finished = .of (s.callbacks c)
  behind : (s.calls c).afterPost = true
  place : s.item cfg (.call c) = q
  item : s.calls c = .snapshot → h.item = s.ring.deref q

variable {cfg : Config C T} {c : C} {q : AmtRing.Pointer T} {s t : Ucx.State C T} {h : State T}

/-- What a step leaves to be shown is shown by some further accesses. -/
def Goes (cfg : Config C T) (c : C) (q : AmtRing.Pointer T) (h : State T) (t : Ucx.State C T) : Prop :=
  ∃ sides h', exec (step q (cfg.status c)) h sides = some h' ∧ Shows cfg c q t h'

attribute [local simp] AttachPc.of FinishedPc.of snapshotOf Ucx.State.setExt Ucx.State.callAt
  Ucx.State.callbackAt Ucx.State.completeAt Ucx.State.item Ucx.State.store Ucx.State.storeLifecycle
  Ucx.State.return AmtRing.State.store AmtRing.State.storeLifecycle AmtRing.State.sign
  AmtRing.State.assign AmtRing.State.given step edumpiUcxAttachEntry edumpiUcxRecvFinished exec_cons

/-- One access of the call is some accesses of the attaching side. -/
theorem Shows.call {args : IrecvArgs} {now : Timespec} (shows : Shows cfg c q s h)
    (taken : mpiIrecv cfg c args now s = some t) : Goes cfg c q h t := by
  obtain ⟨x, item, attach, finished, word, bytes, source, runs⟩ := h
  obtain ⟨rfl, rfl, rfl, behind, place, same⟩ := shows
  unfold mpiIrecv at taken
  -- By the place of the call, which is behind the post.
  cases standing : s.calls c <;> simp only [standing, CallPc.afterPost, reduceCtorEq] at taken behind
  case snapshot =>
    -- The whole program copies the entry in one access.
    cases taken
    have same := same standing
    refine ⟨replicate 5 .attach, _, rfl, ?_⟩
    constructor <;> simp_all
  case arm | publish =>
    cases taken
    refine ⟨[.attach], _, rfl, ?_⟩
    constructor <;> simp_all
  case check =>
    -- A callback that is over is noticed, and what it has stored is loaded.
    cases taken
    by_cases called : (s.ext c).cbDone = true
    · refine ⟨replicate 3 .attach, _, by simp [replicate, called]; rfl, ?_⟩
      constructor <;> simp_all
    · refine ⟨[.attach], _, by simp [called]; rfl, ?_⟩
      constructor <;> simp_all
  case exchange =>
    split at taken
    all_goals
      rename_i won
      cases taken
      refine ⟨[.attach], _, by simp [won]; rfl, ?_⟩
      constructor <;> simp_all
  case completing =>
    split at taken <;> cases taken
    refine ⟨[.attach], _, rfl, ?_⟩
    constructor <;> simp_all
  all_goals
    cases taken
    refine ⟨[], _, exec_nil, ?_⟩
    constructor <;> simp_all

omit [DecidableEq T] in
/-- One access of the callback is some accesses of the finishing side. -/
theorem Shows.callback (shows : Shows cfg c q s h)
    (taken : Ucx.edumpiUcxRecvFinished cfg c s = some t) : Goes cfg c q h t := by
  obtain ⟨x, item, attach, finished, word, bytes, source, runs⟩ := h
  obtain ⟨rfl, rfl, rfl, behind, place, same⟩ := shows
  unfold Ucx.edumpiUcxRecvFinished at taken
  cases standing : s.callbacks c <;> simp only [standing, reduceCtorEq] at taken
  case waiting =>
    split at taken <;> cases taken
    refine ⟨replicate 2 .finished, _, rfl, ?_⟩
    constructor <;> simp_all
  case storeDone =>
    cases taken
    refine ⟨[.finished], _, rfl, ?_⟩
    constructor <;> simp_all
  case loadQ =>
    cases taken
    by_cases found : (s.ext c).q.isSome = true
    all_goals
      refine ⟨[.finished], _, by simp [found]; rfl, ?_⟩
      constructor <;> simp_all
  case exchange =>
    split at taken
    all_goals
      rename_i won
      cases taken
    · refine ⟨[.finished], _, by simp [won]; rfl, ?_⟩
      constructor <;> simp_all
    -- The body runs within the callback.
    · refine ⟨replicate 2 .finished, _, by simp [replicate, won]; rfl, ?_⟩
      constructor <;> simp_all

/-- The body of the completion touches neither side. -/
theorem Shows.complete {now : Timespec} (shows : Shows cfg c q s h) (snapped : s.calls c ≠ .snapshot)
    (taken : edumpiUcxCompleteEntry cfg c now s = some t) : Goes cfg c q h t := by
  obtain ⟨x, attach, finished, behind, place, -⟩ := shows
  -- The sides have no access for it.
  refine ⟨[], h, exec_nil, ?_⟩
  unfold edumpiUcxCompleteEntry at taken
  dsimp only at taken
  (repeat' split at taken) <;> cases taken
  case h_1.refl claimed =>
    -- The late entry is claimed in the name of the completion.
    refine ⟨x, attach, finished, behind, ?_, fun here => absurd here snapped⟩
    rw [← place]
    cases AmtRing.claim_cases claimed <;> simp
  all_goals
    exact ⟨x, attach, finished, behind, place, fun here => absurd here snapped⟩

/-- The accesses of one receive; its completion comes after the snapshot. -/
def Own (c : C) (s : Ucx.State C T) : Ucx.Action C → Prop
  | .call d _ | .callback d => d = c
  | .complete d _ => d = c ∧ s.calls c ≠ .snapshot
  | _ => False

/-- What one posted receive does in the whole program is a run of the two sides. -/
theorem shows_run {args : IrecvArgs} (receive : cfg.call c = .irecv args)
    {actions : List (Ucx.Action C)} (shows : Shows cfg c q s h)
    (own : Along (Ucx.step cfg) (Own c) s actions) (ran : exec (Ucx.step cfg) s actions = some t) :
    Goes cfg c q h t := by
  -- By induction on the run; the accesses of the two sides are put together.
  induction actions generalizing s h with
  | nil =>
    cases ran
    exact ⟨[], h, exec_nil, shows⟩
  | cons a rest ih =>
    obtain ⟨u, taken, onward⟩ := exec_cons_eq_some.mp ran
    rw [along_cons taken] at own
    have first : Goes cfg c q h u := by
      cases a with
      | call d now =>
        obtain rfl : d = c := own.1
        have called : mpiIrecv cfg d args now s = some u := by
          have behind := shows.behind
          unfold Ucx.step stepCall at taken
          cases standing : s.calls d <;> simp_all
        exact shows.call called
      | callback d =>
        obtain rfl : d = c := own.1
        exact shows.callback taken
      | complete d now =>
        obtain ⟨rfl, snapped⟩ : d = c ∧ _ := own.1
        exact shows.complete snapped taken
      | _ => exact own.1.elim
    obtain ⟨sides, h', reached, shown⟩ := first
    obtain ⟨more, h'', further, ends⟩ := ih shown own.2 onward
    exact ⟨sides ++ more, h'', exec_append_eq_some.mpr ⟨h', reached, further⟩, ends⟩

end Refinement

end EduMpi.Ucx.Handshake
