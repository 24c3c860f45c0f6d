import EduMpi.Lib.Window
import EduMpi.Trace.SingleRing
import Mathlib.Data.List.Range

/-! The single-producer ring is a lossless queue as long as its full test is not passed too early. -/

namespace EduMpi.SingleRing

open Machine List State
open List (replicate range)

/-! Positions as counts: the code keeps where a thread is, the laws keep how far it got. -/

/-- The position of a thread that has passed a number of slots since the start. -/
def position (size count : Nat) : Int :=
  if count = 0 then -1 else ((count - 1) % size : Nat)

@[simp] theorem position_succ (size count : Nat) :
    position size (count + 1) = (count % size : Nat) := by
  rw [position, if_neg (by omega), Nat.add_sub_cancel]

theorem position_eq_neg_one {size count : Nat} : position size count = -1 ↔ count = 0 := by
  rw [position]
  split <;> omega

/-- Moving on one slot is counting one slot more. -/
theorem position_next {cfg : Config} (pos : 0 < cfg.maxRingsize) (count : Nat) :
    cfg.next (position cfg.maxRingsize count) = position cfg.maxRingsize (count + 1) := by
  cases count with
  | zero =>
    -- The start value is in front of slot zero, however small the ring is.
    rw [Config.next, position, if_neg (by omega), position_succ, Nat.zero_mod]
    rfl
  | succ count =>
    rw [position_succ, position_succ, Window.succ_mod pos, Config.next]
    by_cases last : count % cfg.maxRingsize + 1 = cfg.maxRingsize
    · rw [if_pos last, if_pos (by omega)]
      rfl
    · rw [if_neg last, if_neg (by omega)]
      rfl

/-- Positions tell counts apart that are less than the ring apart. -/
theorem position_inj {size a b : Nat} (le : a ≤ b) (close : b < a + size ∨ a = 0)
    (same : position size a = position size b) : a = b := by
  cases a with
  | zero =>
    exact (position_eq_neg_one.mp same.symm).symm
  | succ a =>
    obtain ⟨b, rfl⟩ : ∃ b', b = b' + 1 := ⟨b - 1, by omega⟩
    rw [position_succ, position_succ] at same
    have residues : a % size = b % size := by omega
    rw [Window.eq_of_mod_eq residues (by omega) (by omega)]

/-! What each place in the code knows. -/

/-- The claim has its slot, but the writer position does not say so yet. -/
def ProducerPc.unpublished : ProducerPc → Bool
  | .firstStore | .wrapStore | .nextReset | .nextStore => true
  | _ => false

/-- The claim has its slot and has not returned. -/
@[simp] def ProducerPc.claiming : ProducerPc → Bool
  | .firstStore | .firstReset | .wrapStore | .wrapReset | .nextReset | .nextStore => true
  | _ => false

/-- The monitor has moved on to a slot and has not encoded it. -/
@[simp] def MonitorPc.reading : MonitorPc → Bool
  | .abandonPending | .abandonDone | .abandonRun | .abandonEndSec | .abandonEndNsec
  | .abandonLoad | .abandonCas _ | .testLast | .waitEnd | .waitRun | .encode | .shutEncode => true
  | _ => false

/-- The monitor has found an entry that it has not moved on to. -/
@[simp] def MonitorPc.sawMore : MonitorPc → Bool
  | .testWrap | .advance | .shutAdvance => true
  | _ => false

/-- The monitor has left its main loop. -/
@[simp] def MonitorPc.shutdown : MonitorPc → Bool
  | .shutTest | .shutAdvance | .shutEncode | .finished => true
  | _ => false

/-- How many claims the writer position counts. -/
def State.published (s : State) : Nat :=
  s.claims - s.producer.unpublished.toNat

/-- How many slots the reader position counts. -/
def State.read (s : State) : Nat :=
  s.encoded.length + s.monitor.reading.toNat

/-- What the application thread knows at each place of a claim. -/
def ProducerOk (cfg : Config) (s : State) : Prop :=
  match s.producer with
  | .idle | .call | .firstReset | .wrapReset => True
  | .firstStore => s.writerPos = -1 ∧ 1 ≤ s.claims
  | .testReader => 1 ≤ s.claims
  -- A full ring passes the test only with the writer on the last slot.
  | .testWrap | .branch =>
    1 ≤ s.claims ∧ (s.claims + 1 < s.read + cfg.maxRingsize
      ∨ s.writerPos = cfg.maxRingsize - 1 ∨ s.read = 0)
  | .wrapStore => s.writerPos = cfg.maxRingsize - 1 ∧ 1 ≤ s.claims
  | .nextReset | .nextStore => s.writerPos ≠ cfg.maxRingsize - 1 ∧ 1 ≤ s.claims

/-- The facts that every step of the ring keeps. -/
structure Inv (cfg : Config) (s : State) : Prop where
  writer : s.writerPos = position cfg.maxRingsize s.published
  reader : s.readerPos = position cfg.maxRingsize s.read
  order : s.read ≤ s.published
  /-- At least one slot stays unused, except before the first read. -/
  room : s.claims < s.read + cfg.maxRingsize ∨ (s.read = 0 ∧ s.claims ≤ cfg.maxRingsize)
  producer : ProducerOk cfg s
  unread : s.monitor.sawMore = true → s.read < s.published
  stopped : s.monitor.shutdown = true → s.runThread = false
  drained : s.monitor = .finished → s.readerPos = s.writerPos
  log : s.encoded = (range s.encoded.length).map some
  /-- The newest events are the ones their slots hold. -/
  newest : ∀ e, e < s.claims → s.claims ≤ e + cfg.maxRingsize →
    s.lastClaimed (e % cfg.maxRingsize) = some e
  placed : ∀ slot e, s.lastClaimed slot = some e → e < s.claims ∧ e % cfg.maxRingsize = slot
  displaced : s.producer.claiming = true → ∀ e, s.displaced = some e → e < s.encoded.length
  quiet : s.runThread = false → s.producer = .idle

/-- The claim goes on unless the writer would wrap onto a reader at slot zero or before it. -/
def KeepsRoom (cfg : Config) (s : State) : Action → Prop
  | .claim => s.producer = .branch →
      ¬(s.writerPos = cfg.maxRingsize - 1 ∧ (s.readerPos = -1 ∨ s.readerPos = 0))
  | _ => True

/-- The lifecycle word that the monitor is about to replace by an abandoned one. -/
@[simp] def MonitorPc.abandoning : MonitorPc → Option Nat
  | .abandonCas lc => some lc
  | _ => none

/-- The monitor does not abandon an entry. -/
def AbandonsNothing (s : State) : Action → Prop
  | .monitor _ => s.monitor.abandoning ≠ some s.item.lifecycle
  | _ => True

instance (cfg : Config) (s : State) : DecidablePred (KeepsRoom cfg s)
  | .claim => inferInstanceAs (Decidable (_ → _))
  | .finalize | .write _ _ | .monitor _ => isTrue trivial

instance (s : State) : DecidablePred (AbandonsNothing s)
  | .monitor _ => inferInstanceAs (Decidable (_ ≠ _))
  | .claim | .finalize | .write _ _ => isTrue trivial

theorem inv_initial (cfg : Config) (memory : Nat → QEntry) : Inv cfg (initial memory) where
  writer := rfl
  reader := rfl
  order := Nat.le_refl 0
  room := .inr ⟨rfl, Nat.zero_le _⟩
  producer := trivial
  unread := by intro saw; simp [initial] at saw
  stopped := by intro left; simp [initial] at left
  drained := by intro _; rfl
  log := rfl
  newest := by intro e none; exact absurd none (Nat.not_lt_zero e)
  placed := by intro slot e held; exact absurd held (by simp [initial])
  displaced := by intro claiming; simp [initial] at claiming
  quiet := by intro stopped; simp [initial] at stopped

/-! The application thread. -/

section Claim

variable {cfg : Config} {s t : State}

/-- Between two claims every claim is published. -/
private theorem published_eq (settled : s.producer.unpublished = false) :
    s.published = s.claims := by
  simp [State.published, settled]

section Inv

variable (inv : Inv cfg s) {pc : ProducerPc}

include inv

/-- A claim that leaves room gets the slot of an event that was encoded before. -/
private theorem inv_claimSlot (settled : s.producer.unpublished = false)
    (fixed : pc.unpublished = true) (running : s.runThread = true)
    (room : s.claims + 1 < s.read + cfg.maxRingsize
      ∨ (s.read = 0 ∧ s.claims + 1 ≤ cfg.maxRingsize)) (known : ProducerOk cfg
      { s.claimSlot (s.claims % cfg.maxRingsize) with producer := pc }) :
    Inv cfg { s.claimSlot (s.claims % cfg.maxRingsize) with producer := pc } := by
  have same : State.published { s.claimSlot (s.claims % cfg.maxRingsize) with producer := pc }
      = s.published := by
    simp [State.published, claimSlot, fixed, settled]
  refine ⟨by rw [same]; exact inv.writer, inv.reader, by rw [same]; exact inv.order, room, known,
    by rw [same]; exact inv.unread, inv.stopped, inv.drained, inv.log, ?_, ?_, ?_, ?_⟩
  · -- The new event is in its slot, and no other event of the last round is.
    intro e below recent
    simp only [claimSlot] at below recent ⊢
    rcases Nat.lt_or_ge e s.claims with older | newest
    · rw [Function.update_of_ne (Window.mod_ne older (by omega))]
      exact inv.newest e older (by omega)
    · have : e = s.claims := by omega
      subst this
      rw [Function.update_self]
  · intro slot e held
    simp only [claimSlot, Function.update_apply] at held ⊢
    split at held
    · rename_i here
      cases held
      exact ⟨by omega, here.symm⟩
    · have := inv.placed slot e held
      exact ⟨by omega, this.2⟩
  · -- The event that loses its slot is a whole round old, so the reader is past it.
    intro _ e held
    obtain ⟨below, residue⟩ := inv.placed _ _ held
    have old : e + cfg.maxRingsize ≤ s.claims := by
      by_contra recent
      exact Window.mod_ne below (by omega) residue
    have reading : s.read ≤ s.encoded.length + 1 := by
      have := Bool.toNat_le s.monitor.reading
      simp only [State.read]
      omega
    change e < s.encoded.length
    omega
  · intro stopped
    exact absurd stopped (by simp [claimSlot, running])

/-- A claim that neither fixes nor publishes a slot changes nothing the laws count. -/
private theorem inv_moveOn (running : s.runThread = true)
    (same : pc.unpublished = s.producer.unpublished)
    (claiming : pc.claiming = true → s.producer.claiming = true) {memory : Nat → QEntry}
    {ticket : Nat} (known : ProducerOk cfg
      { s with producer := pc, ringbuffer := memory, ticketCounter := ticket }) :
    Inv cfg { s with producer := pc, ringbuffer := memory, ticketCounter := ticket } := by
  have published : State.published
      { s with producer := pc, ringbuffer := memory, ticketCounter := ticket } = s.published := by
    simp only [State.published, same]
  refine ⟨by rw [published]; exact inv.writer, inv.reader, by rw [published]; exact inv.order,
    inv.room, known, by rw [published]; exact inv.unread, inv.stopped, inv.drained, inv.log,
    inv.newest, inv.placed, fun h => inv.displaced (claiming h), ?_⟩
  intro stopped
  exact absurd stopped (by simp [running])

/-- Publishing the slot of a claim moves the writer on by one slot. -/
private theorem inv_publish (pos : 0 < cfg.maxRingsize) (running : s.runThread = true)
    (fixed : s.producer.unpublished = true) (one : 1 ≤ s.claims) (settled : pc.unpublished = false)
    (claiming : s.producer.claiming = true) {writerPos : Int}
    (moved : writerPos = cfg.next s.writerPos)
    (known : ProducerOk cfg { s with writerPos, producer := pc }) :
    Inv cfg { s with writerPos, producer := pc } := by
  have before : s.published + 1 = s.claims := by
    simp only [State.published, fixed, Bool.toNat_true]
    omega
  have after : State.published { s with writerPos, producer := pc } = s.published + 1 := by
    simp only [State.published, settled, Bool.toNat_false]
    simp only [State.published] at before
    omega
  have notStopped : s.runThread ≠ false := by simp [running]
  refine ⟨?_, inv.reader, ?_, inv.room, known, ?_, inv.stopped, ?_, inv.log, inv.newest,
    inv.placed, fun _ => inv.displaced claiming, fun stopped => absurd stopped notStopped⟩
  · -- The writer position is where the next claim will look.
    rw [after, ← position_next pos, ← inv.writer, moved]
  · rw [after]
    exact Nat.le_succ_of_le inv.order
  · intro saw
    rw [after]
    exact Nat.lt_succ_of_lt (inv.unread saw)
  · -- Nothing is published once the monitor has stopped.
    intro finished
    have here : s.monitor = .finished := finished
    exact absurd (inv.stopped (by rw [here]; rfl)) notStopped

variable (size : 2 ≤ cfg.maxRingsize)

include size

/-- The slot of the next claim is the one behind the writer. -/
private theorem next_slot (settled : s.producer.unpublished = false) :
    (cfg.next s.writerPos).toNat = s.claims % cfg.maxRingsize := by
  rw [inv.writer, published_eq settled, position_next (by omega), position_succ, Int.toNat_natCast]

/-- In a ring that is full up to its spare slot the reader is one slot before the writer. -/
private theorem reader_of_full (settled : s.producer.unpublished = false) (begun : s.read ≠ 0)
    (full : s.claims + 1 = s.read + cfg.maxRingsize) : s.readerPos = cfg.next s.writerPos := by
  obtain ⟨read, succ⟩ := Nat.exists_eq_succ_of_ne_zero begun
  -- The next claim would be the round trip of the slot last read.
  have claimed : s.claims = read + cfg.maxRingsize := by omega
  rw [inv.reader, inv.writer, published_eq settled, succ, position_next (by omega), position_succ,
    position_succ, claimed, Nat.add_mod_right]

/-- The claim that fills the ring puts the writer on the last slot. -/
private theorem writer_of_filled (settled : s.producer.unpublished = false)
    (filled : s.claims = cfg.maxRingsize) : s.writerPos = cfg.maxRingsize - 1 := by
  rw [inv.writer, published_eq settled, position, if_neg (by omega), Nat.mod_eq_of_lt (by omega)]
  omega

/-- The two reads of the full test let a claim pass only where the laws say so. -/
private theorem passed_of_test (settled : s.producer.unpublished = false)
    (passes : s.writerPos ≠ s.readerPos - 1) :
    s.claims + 1 < s.read + cfg.maxRingsize ∨ s.writerPos = cfg.maxRingsize - 1 ∨ s.read = 0 := by
  by_contra crowded
  rw [not_or, not_or] at crowded
  obtain ⟨full, notLast, begun⟩ := crowded
  have room := inv.room
  have behind := reader_of_full inv size settled begun (by omega)
  rw [Config.next, if_neg notLast] at behind
  omega

/-- A claim that was let through, outside the wrap onto the reader, leaves a spare slot. -/
private theorem room_of_branch (here : s.producer = .branch)
    (free : ¬(s.writerPos = cfg.maxRingsize - 1 ∧ (s.readerPos = -1 ∨ s.readerPos = 0))) :
    s.claims + 1 < s.read + cfg.maxRingsize ∨ (s.read = 0 ∧ s.claims + 1 ≤ cfg.maxRingsize) := by
  have settled : s.producer.unpublished = false := by rw [here]; rfl
  have known := inv.producer
  simp only [ProducerOk, here] at known
  have room := inv.room
  by_cases last : s.writerPos = cfg.maxRingsize - 1
  · -- The reader is past slot zero, so a ring full up to its spare slot is impossible.
    have begun : s.read ≠ 0 := by
      intro unread
      exact free ⟨last, .inl (by rw [inv.reader, unread]; rfl)⟩
    left
    by_contra full
    have behind := reader_of_full inv size settled begun (by omega)
    rw [Config.next, if_pos last] at behind
    exact free ⟨last, .inr behind⟩
  · rcases known.2 with spare | wrong | unread
    · exact .inl spare
    · exact absurd wrong last
    · -- Before the first read the writer reaches the last slot with the last claim.
      right
      have filled := writer_of_filled inv size settled
      omega

/-- Every step of a claim keeps the facts, as long as the claim leaves room. -/
theorem inv_getWritingRingPos (roomy : KeepsRoom cfg s .claim)
    (taken : getWritingRingPos cfg s = some t) : Inv cfg t := by
  have running : s.producer ≠ .idle → s.runThread = true := by
    intro busy
    cases stopped : s.runThread with
    | true => rfl
    | false => exact absurd (inv.quiet stopped) busy
  have known := inv.producer
  unfold getWritingRingPos at taken
  -- One case for each place of the producer, in the order of the source.
  cases here : s.producer <;> simp only [here, Option.some.injEq] at taken
  all_goals simp only [ProducerOk, here] at known
  case idle =>
    split at taken
    · cases taken
      rename_i go
      exact inv_moveOn inv go (by rw [here]; rfl) (by simp) trivial
    · cases taken
  case call =>
    have go := running (by simp [here])
    have settled : s.producer.unpublished = false := by rw [here]; rfl
    have published := published_eq settled
    split at taken
    · rename_i start
      -- The first claim of all: nothing is published or read yet.
      have none : s.claims = 0 := by
        rw [← published]
        exact position_eq_neg_one.mp (inv.writer ▸ start)
      subst taken
      have slot : 0 = s.claims % cfg.maxRingsize := by rw [none, Nat.zero_mod]
      rw [slot]
      exact inv_claimSlot inv settled rfl go (by omega) ⟨start, by simp [claimSlot]⟩
    · rename_i begun
      subst taken
      refine inv_moveOn inv go (by rw [here]; rfl) (by simp) ?_
      change 1 ≤ s.claims
      have : s.claims ≠ 0 := fun none => begun (by rw [inv.writer, published, none]; rfl)
      omega
  case firstStore | wrapStore | nextStore =>
    subst taken
    refine inv_publish inv (by omega) (running (by simp [here])) (by rw [here]; rfl) known.2 rfl
      (by rw [here]; rfl) ?_ trivial
    unfold Config.next
    split <;> omega
  case firstReset | wrapReset =>
    subst taken
    exact inv_moveOn inv (running (by simp [here])) (by rw [here]; rfl) (by simp) trivial
  -- The full test was passed, so the reader is not on the next slot.
  case testReader =>
    subst taken
    refine inv_moveOn inv (running (by simp [here])) (by rw [here]; split <;> rfl)
      (by split <;> simp) ?_
    split
    · exact known
    · rename_i passes
      have passed := passed_of_test inv size (by rw [here]; rfl) passes
      exact ⟨known, passed⟩
  case testWrap =>
    subst taken
    refine inv_moveOn inv (running (by simp [here])) (by rw [here]; split <;> rfl)
      (by split <;> simp) ?_
    split
    · exact known.1
    · exact known
  case branch =>
    have go := running (by simp [here])
    have settled : s.producer.unpublished = false := by rw [here]; rfl
    have slot := next_slot inv size settled
    have room := room_of_branch inv size here (roomy here)
    split at taken
    · rename_i last
      subst taken
      rw [Config.next, if_pos last, Int.toNat_zero] at slot
      rw [slot]
      exact inv_claimSlot inv settled rfl go room ⟨last, by simp [claimSlot]⟩
    · rename_i more
      subst taken
      rw [Config.next, if_neg more] at slot
      rw [slot]
      exact inv_claimSlot inv settled rfl go room ⟨more, by simp [claimSlot]⟩
  case nextReset =>
    subst taken
    exact inv_moveOn inv (running (by simp [here])) (by rw [here]; rfl)
      (by rw [here]; exact id) known

end Inv

end Claim

/-! The monitor thread. -/

section Monitor

variable {cfg : Config} {s t : State}

/-- What a step of the monitor can do. -/
inductive MonitorMove (cfg : Config) (s : State) : State → Prop where
  /-- It moves on in its code without moving on in the ring. -/
  | quiet (pc : MonitorPc) (held : Bool) (since : Int) (same : pc.reading = s.monitor.reading)
      (saw : pc.sawMore = true → s.monitor.sawMore = true ∨ s.readerPos ≠ s.writerPos)
      (left : pc.shutdown = true → s.monitor.shutdown = true ∨ s.runThread = false)
      (done : pc = .finished → s.readerPos = s.writerPos) :
      MonitorMove cfg s { s with monitor := pc, held := held, heldSince := since }
  /-- It moves on to the next slot. -/
  | advance (pc : MonitorPc) (saw : s.monitor.sawMore = true)
      (outside : s.monitor.reading = false) (inside : pc.reading = true)
      (blind : pc.sawMore = false) (left : pc.shutdown = true → s.monitor.shutdown = true)
      (more : pc ≠ .finished) :
      MonitorMove cfg s { s with readerPos := cfg.next s.readerPos, monitor := pc }
  /-- It encodes the slot it is at. -/
  | encode (pc : MonitorPc) (held : Bool) (inside : s.monitor.reading = true)
      (outside : pc.reading = false) (blind : pc.sawMore = false)
      (left : pc.shutdown = true → s.monitor.shutdown = true) (more : pc ≠ .finished) :
      MonitorMove cfg s { s.encodeItem with held := held, monitor := pc }
  /-- It abandons the entry it is at. -/
  | abandon (lc : Nat) (here : s.monitor = .abandonCas lc) (taken : s.item.lifecycle = lc)
      (t : State) : MonitorMove cfg s t

/-- A step that stays outside the places the laws watch. -/
private theorem MonitorMove.plain {pc : MonitorPc} (held : Bool) (since : Int)
    (same : pc.reading = s.monitor.reading) (blind : pc.sawMore = false)
    (inside : pc.shutdown = false) :
    MonitorMove cfg s { s with monitor := pc, held := held, heldSince := since } :=
  .quiet pc held since same (by rw [blind]; simp) (by rw [inside]; simp)
    (by rintro rfl; simp at inside)

/-- Every step of the monitor is one of these. -/
theorem monitorMove_of_step {now : Int} (taken : sqlMonitorFunc cfg now s = some t) :
    MonitorMove cfg s t := by
  unfold sqlMonitorFunc at taken
  cases here : s.monitor <;> simp only [here, Option.some.injEq, reduceCtorEq] at taken
  -- The places where the monitor moves in the ring, or leaves its main loop.
  case abandonCas lc =>
    split at taken
    · rename_i same
      exact .abandon lc here same t
    · subst taken
      exact .plain _ _ (by rw [here]; rfl) rfl rfl
  case advance =>
    subst taken
    exact .advance _ (by rw [here]; rfl) (by rw [here]; rfl) rfl rfl (by simp) (by simp)
  case shutAdvance =>
    subst taken
    exact .advance _ (by rw [here]; rfl) (by rw [here]; rfl) rfl rfl (by rw [here]; exact id)
      (by simp)
  case encode =>
    subst taken
    exact .encode _ _ (by rw [here]; rfl) rfl rfl (by simp) (by simp)
  case shutEncode =>
    subst taken
    exact .encode _ s.held (by rw [here]; rfl) rfl rfl (by rw [here]; exact id) (by simp)
  case loop | idle =>
    split at taken <;> subst taken
    · exact .plain _ _ (by rw [here]; rfl) rfl rfl
    · rename_i stopped
      exact .quiet _ _ _ (by rw [here]; rfl) (by simp)
        (fun _ => .inr (by simpa using stopped)) (by simp)
  case testEmpty =>
    split at taken <;> subst taken
    · exact .plain _ _ (by rw [here]; rfl) rfl rfl
    · rename_i more
      exact .quiet _ _ _ (by rw [here]; rfl) (fun _ => .inr more) (by simp) (by simp)
  case testWrap =>
    split at taken <;> subst taken
    · exact .plain _ _ (by rw [here]; rfl) rfl rfl
    · exact .quiet _ _ _ (by rw [here]; rfl) (fun _ => .inl (by rw [here]; rfl)) (by simp) (by simp)
  case shutTest =>
    split at taken <;> subst taken
    · rename_i more
      exact .quiet _ _ _ (by rw [here]; rfl) (fun _ => .inr more)
        (fun _ => .inl (by rw [here]; rfl)) (by simp)
    · rename_i done
      exact .quiet _ _ _ (by rw [here]; rfl) (by simp)
        (fun _ => .inl (by rw [here]; rfl)) (fun _ => by simpa using done)
  case holdStalled =>
    subst taken
    exact .plain _ _ (by rw [here]; split <;> split <;> rfl) (by split <;> split <;> rfl)
      (by split <;> split <;> rfl)
  -- Everywhere else it only looks.
  all_goals
    split at taken <;> subst taken <;> exact .plain _ _ (by rw [here]; rfl) rfl rfl

/-- One more slot read leaves a claim what it knew. -/
private theorem producerOk_advance (inv : Inv cfg s) (size : 2 ≤ cfg.maxRingsize)
    {pc : MonitorPc} {position : Int}
    (read : State.read { s with readerPos := position, monitor := pc } = s.read + 1) :
    ProducerOk cfg { s with readerPos := position, monitor := pc } := by
  have known := inv.producer
  have room := inv.room
  cases here : s.producer <;> simp only [ProducerOk, here] at known ⊢
  case testWrap | branch =>
    rw [here] at read
    refine ⟨known.1, ?_⟩
    -- Before the first read, a ring with no spare slot has its writer on the last slot.
    have filled := writer_of_filled inv size (by rw [here]; rfl)
    omega
  all_goals exact known

/-- Every step of the monitor that abandons nothing keeps the facts. -/
theorem inv_sqlMonitorFunc (inv : Inv cfg s) (size : 2 ≤ cfg.maxRingsize)
    (now : Int) (kept : AbandonsNothing s (.monitor now))
    (taken : sqlMonitorFunc cfg now s = some t) : Inv cfg t := by
  have pos : 0 < cfg.maxRingsize := by omega
  rcases monitorMove_of_step taken with
    ⟨pc, held, since, same, saw, left, done⟩ | ⟨pc, saw, outside, inside, blind, left, more⟩
    | ⟨pc, held, inside, outside, blind, left, more⟩ | ⟨lc, here, abandoned⟩
  · -- Nothing that is counted changes.
    have read : State.read { s with monitor := pc, held := held, heldSince := since } = s.read := by
      simp only [State.read, same]
    have known := inv.producer
    refine ⟨inv.writer, by rw [read]; exact inv.reader, by rw [read]; exact inv.order,
      by rw [read]; exact inv.room, ?_, ?_, ?_, done, inv.log, inv.newest, inv.placed,
      inv.displaced, inv.quiet⟩
    · unfold ProducerOk at known ⊢
      rw [read]
      exact known
    · intro sees
      rw [read]
      rcases saw sees with before | differ
      · exact inv.unread before
      · -- Different positions are different counts.
        have distinct : s.read ≠ s.published := by
          intro equal
          exact differ (by rw [inv.reader, inv.writer, equal])
        exact Nat.lt_of_le_of_ne inv.order distinct
    · intro outside
      rcases left outside with before | stopped
      · exact inv.stopped before
      · exact stopped
  · -- One more slot is read.
    have read : State.read { s with readerPos := cfg.next s.readerPos, monitor := pc }
        = s.read + 1 := by
      simp only [State.read, inside, outside, Bool.toNat_true, Bool.toNat_false]
    have unread := inv.unread saw
    have room := inv.room
    refine ⟨inv.writer, ?_, ?_, ?_, ?_, by rw [blind]; simp, fun h => inv.stopped (left h),
      fun h => absurd h more, inv.log, inv.newest, inv.placed, inv.displaced, inv.quiet⟩
    · rw [read, ← position_next pos, ← inv.reader]
    · rw [read]
      exact unread
    · rw [read]
      change s.claims < s.read + 1 + cfg.maxRingsize ∨ _
      omega
    · exact producerOk_advance inv size read
  · -- The slot still holds the event the monitor came for.
    have read : s.read = s.encoded.length + 1 := by
      simp only [State.read, inside, Bool.toNat_true]
    have order := inv.order
    have room := inv.room
    have published : s.published ≤ s.claims := Nat.sub_le _ _
    have item : s.lastClaimed s.readerPos.toNat = some s.encoded.length := by
      rw [inv.reader, read, position_succ]
      exact inv.newest _ (by omega) (by omega)
    have same : State.read { s.encodeItem with held := held, monitor := pc } = s.read := by
      simp only [State.read, encodeItem, outside, inside, length_append,
        length_singleton, Bool.toNat_true, Bool.toNat_false]
    have known := inv.producer
    refine ⟨inv.writer, by rw [same]; exact inv.reader, by rw [same]; exact inv.order,
      by rw [same]; exact inv.room, ?_, by rw [blind]; simp, fun h => inv.stopped (left h),
      fun h => absurd h more, ?_, inv.newest, inv.placed, ?_, inv.quiet⟩
    · unfold ProducerOk at known ⊢
      rw [same]
      exact known
    · simp only [encodeItem, item, length_append, length_singleton,
        range_succ, map_append, map_cons, map_nil]
      rw [← inv.log]
    · intro claiming e held
      have before := inv.displaced claiming e held
      simp only [encodeItem, length_append]
      omega
  · simp only [AbandonsNothing, here, abandoned] at kept
    exact absurd rfl kept

end Monitor

/-- Every step keeps the facts, as long as claims leave room and nothing is abandoned. -/
theorem inv_step {cfg : Config} (size : 2 ≤ cfg.maxRingsize) (s : State) (a : Action) (t : State)
    (inv : Inv cfg s) (kept : AbandonsNothing s a ∧ KeepsRoom cfg s a)
    (taken : step cfg s a = some t) : Inv cfg t := by
  cases a with
  | claim => exact inv_getWritingRingPos inv size kept.2 taken
  | monitor now => exact inv_sqlMonitorFunc inv size now kept.1 taken
  | write slot entry =>
    cases taken
    exact { inv with }
  | finalize =>
    simp only [step] at taken
    split at taken
    · rename_i idle
      cases taken
      exact { inv with stopped := fun _ => rfl, quiet := fun _ => idle }
    · cases taken

/-! The end of the run. -/

section Shutdown

variable {cfg : Config} {s : State}

/-- In the shutdown loop the two positions tell whether anything is left. -/
private theorem read_eq_published (inv : Inv cfg s) (quiet : s.producer = .idle)
    (same : s.readerPos = s.writerPos) : s.read = s.published := by
  have published : s.published = s.claims := published_eq (by rw [quiet]; rfl)
  have room := inv.room
  have same : position cfg.maxRingsize s.read = position cfg.maxRingsize s.published := by
    rw [← inv.reader, same, inv.writer]
  exact position_inj inv.order (by omega) same

/-- After the shutdown loop every claimed event is encoded. -/
private theorem encoded_of_finished (inv : Inv cfg s) (finished : s.monitor = .finished) :
    s.encoded = (range s.claims).map some := by
  have stopped := inv.stopped (by rw [finished]; rfl)
  have quiet := inv.quiet stopped
  have all := read_eq_published inv quiet (inv.drained finished)
  simp only [State.read, State.published, finished, quiet, MonitorPc.reading,
    ProducerPc.unpublished, Bool.toNat_false] at all
  rw [inv.log, show s.encoded.length = s.claims by omega]

/-- The shutdown loop ends: each round encodes one of the events that are left. -/
private theorem shutdown_ends (size : 2 ≤ cfg.maxRingsize) (left : Nat) (inv : Inv cfg s)
    (here : s.monitor = .shutTest) (remaining : s.published = s.read + left) :
    ∃ rounds t, exec (step cfg) s (replicate rounds (.monitor 0)) = some t
      ∧ t.monitor = .finished := by
  -- By induction on the number of events left, one round of three steps each.
  induction left generalizing s with
  | zero =>
    have same : s.readerPos = s.writerPos := by
      rw [inv.reader, inv.writer, remaining, Nat.add_zero]
    exact ⟨1, s.monitorAt .finished, by simp [exec, step, sqlMonitorFunc, here, same], rfl⟩
  | succ left ih =>
    have stopped := inv.stopped (by rw [here]; rfl)
    have quiet := inv.quiet stopped
    -- Something is left to read, so the loop takes one more round.
    have differ : s.readerPos ≠ s.writerPos := by
      intro same
      have := read_eq_published inv quiet same
      omega
    -- The three steps of the round.
    have first : step cfg s (.monitor 0) = some (s.monitorAt .shutAdvance) := by
      simp [step, sqlMonitorFunc, here, differ]
    have inv₁ := inv_sqlMonitorFunc inv size 0 (by simp [AbandonsNothing, here]) first
    obtain ⟨u, second⟩ : ∃ u, step cfg (s.monitorAt .shutAdvance) (.monitor 0) = some u :=
      ⟨_, rfl⟩
    have inv₂ := inv_sqlMonitorFunc inv₁ size 0 (by simp [AbandonsNothing, monitorAt]) second
    obtain ⟨v, third⟩ : ∃ v, step cfg u (.monitor 0) = some v := by
      cases second
      exact ⟨_, rfl⟩
    have inv₃ := inv_sqlMonitorFunc inv₂ size 0 (by cases second; simp [AbandonsNothing]) third
    have round : v.monitor = .shutTest ∧ v.published = s.published ∧ v.read = s.read + 1 := by
      cases second
      cases third
      refine ⟨rfl, rfl, ?_⟩
      simp [State.read, encodeItem, monitorAt, here]
    obtain ⟨rounds, t, ran, finished⟩ := ih inv₃ round.1 (by omega)
    refine ⟨rounds + 3, t, ?_, finished⟩
    rw [Nat.add_comm, replicate_add]
    exact exec_append_eq_some.mpr ⟨v, by simp [exec, first, second, third], ran⟩

end Shutdown

/--
The ring is a lossless queue in every run in which no claim wraps onto the reader.

The condition is that a claim that was let through does not find the writer on the last slot with the reader on slot zero or not started.
-/
theorem fifo_of_keepsRoom (cfg : Config) (size : 2 ≤ cfg.maxRingsize) (memory : Nat → QEntry)
    (actions : List Action) (s : State)
    (ran : exec (step cfg) (initial memory) actions = some s)
    (abandons : Along (step cfg) AbandonsNothing (initial memory) actions)
    (roomy : Along (step cfg) (KeepsRoom cfg) (initial memory) actions) :
    (∃ count ≤ s.claims, s.encoded = (range count).map some)
    ∧ (s.producer.claiming = true → ∀ e, s.displaced = some e → some e ∈ s.encoded)
    ∧ (s.monitor = .finished → s.encoded = (range s.claims).map some)
    ∧ (s.monitor = .shutTest → ∃ rounds t,
        exec (step cfg) s (replicate rounds (.monitor 0)) = some t ∧ t.monitor = .finished) := by
  have inv : Inv cfg s := exec_keeps_along (inv_step size) (inv_initial cfg memory)
    (abandons.and roomy) ran
  refine ⟨⟨s.encoded.length, ?_, inv.log⟩, ?_, encoded_of_finished inv, ?_⟩
  · have order := inv.order
    simp only [State.read, State.published] at order
    omega
  · intro claiming e held
    rw [inv.log]
    exact mem_map.mpr ⟨e, mem_range.mpr (inv.displaced claiming e held), rfl⟩
  · intro here
    exact shutdown_ends size (s.published - s.read) inv here (by have := inv.order; omega)

/-- Two events through a ring of two slots, the second one encoded by the shutdown loop. -/
theorem fifo_two_events :
    ∃ actions s, exec (step ⟨2, 0⟩) (initial fun _ => QEntry.zero) actions = some s
      ∧ s.claims = 2 ∧ s.encoded = (range s.claims).map some := by
  let actions : List Action :=
    replicate 4 .claim
      ++ [.write 0 { QEntry.zero with endTime := ⟨1, 1⟩ }] ++ replicate 14 (.monitor 0)
      ++ replicate 7 .claim ++ [.finalize] ++ replicate 5 (.monitor 0)
  obtain ⟨s, ran, finished, claims⟩ :
      ∃ s, exec (step ⟨2, 0⟩) (initial fun _ => QEntry.zero) actions = some s
        ∧ s.monitor = .finished ∧ s.claims = 2 :=
    ⟨_, rfl, by decide, by decide⟩
  exact ⟨actions, s, ran, claims, (fifo_of_keepsRoom ⟨2, 0⟩ (by decide) _ actions s ran
    (by decide) (by decide)).2.2.1 finished⟩

/--
Three events in a ring of two slots before the monitor first runs.

The third claim is let through although both slots are unread: it takes the slot of the first event, and after the shutdown loop only the third event was encoded.
-/
theorem fifo_loses_events :
    ∃ actions s, exec (step ⟨2, 0⟩) (initial fun _ => QEntry.zero) actions = some s
      ∧ Along (step ⟨2, 0⟩) AbandonsNothing (initial fun _ => QEntry.zero) actions
      ∧ s.monitor = .finished ∧ s.claims = 3 ∧ s.encoded = [some 2] :=
  ⟨replicate 18 .claim ++ [.finalize] ++ replicate 5 (.monitor 0), _, rfl,
    by decide, by decide, by decide, by decide⟩

end EduMpi.SingleRing
