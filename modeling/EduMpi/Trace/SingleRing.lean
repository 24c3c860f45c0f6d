import EduMpi.Lib.Run
import EduMpi.Trace.Entry
import Mathlib.Logic.Function.Basic

/-! The single-producer event ring: the claiming application thread and the monitor thread. -/

namespace EduMpi.SingleRing

/-- Where the application thread is in its claim of a slot. -/
inductive ProducerPc where
  /-- Not in a claim. -/
  | idle
  /-- About to compare the writer position with its start value. -/
  | call
  /-- First claim ever: about to publish position zero, then to reset its slot. -/
  | firstStore | firstReset
  /-- The two reads of the reader position in the test for a full ring. -/
  | testReader | testWrap
  /-- The test let the claim pass. -/
  | branch
  /-- Claim of slot zero behind the last slot: publish, then reset. -/
  | wrapStore | wrapReset
  /-- Claim of the next slot: reset, then publish. -/
  | nextReset | nextStore
deriving DecidableEq, Repr

/-- Where the monitor thread is in its two loops. -/
inductive MonitorPc where
  | loop
  /-- The tests that find the next entry before it is held back. -/
  | holdRun | holdStart | holdEmpty | holdWrap
  /-- The tests that decide whether it is held back. -/
  | holdPending | holdDone | holdEndSec | holdEndNsec | holdAge | holdFinishing | holdStalled
  /-- The three tests for an empty ring, and the sleep behind them. -/
  | testStart | testEmpty | testWrap | idle
  /-- About to move on to the next slot. -/
  | advance
  /-- The tests that decide whether the entry is abandoned. -/
  | abandonPending | abandonDone | abandonRun | abandonEndSec | abandonEndNsec | abandonLoad
  | abandonCas (lc : Nat)
  /-- The wait for an entry that is the last one claimed. -/
  | testLast | waitEnd | waitRun
  | encode
  /-- The loop after the end of the run. -/
  | shutTest | shutAdvance | shutEncode | finished
deriving DecidableEq, Repr

/-- The size of the ring, and how long an entry waits for its request, in nanoseconds. -/
structure Config where
  maxRingsize : Nat
  requestWait : Int

/-- The ring, its two threads, and the history the laws are stated over. -/
structure State where
  writerPos : Int
  readerPos : Int
  runThread : Bool
  ringbuffer : Nat → QEntry
  ticketCounter : Nat
  producer : ProducerPc
  monitor : MonitorPc
  held : Bool
  heldSince : Int
  /-- How many events were claimed; an event is named by the number claimed before it. -/
  claims : Nat
  /-- The event last claimed in a slot. -/
  lastClaimed : Nat → Option Nat
  /-- The event that the slot of the newest claim held before. -/
  displaced : Option Nat
  /-- The events encoded by the monitor, oldest first, read off the slots it encoded. -/
  encoded : List (Option Nat)

/-- A ring before the first call; its memory is not initialised. -/
def initial (memory : Nat → QEntry) : State where
  writerPos := -1
  readerPos := -1
  runThread := true
  ringbuffer := memory
  ticketCounter := 0
  producer := .idle
  monitor := .loop
  held := false
  heldSince := 0
  claims := 0
  lastClaimed := fun _ => none
  displaced := none
  encoded := []

/-- What can happen next. -/
inductive Action where
  /-- The next step of the application thread's claim, or the start of a new one. -/
  | claim
  /-- The end of the run is announced to the monitor. -/
  | finalize
  /-- A call or a completion stores into a slot. -/
  | write (slot : Nat) (entry : QEntry)
  /-- The next step of the monitor, at a time of the clock it may read. -/
  | monitor (now : Int)

/-- The newest event gets a slot. -/
def State.claimSlot (s : State) (slot : Nat) : State :=
  { s with
    claims := s.claims + 1
    lastClaimed := Function.update s.lastClaimed slot (some s.claims)
    displaced := s.lastClaimed slot }

/-- A slot is reset under the next ticket. -/
def State.resetSlot (s : State) (slot : Nat) : State :=
  { s with
    ticketCounter := s.ticketCounter + 1
    ringbuffer := Function.update s.ringbuffer slot
      (edumpiEntryReset (s.ringbuffer slot) (s.ticketCounter + 1)) }

/-- The application thread moves on. -/
def State.producerAt (s : State) (pc : ProducerPc) : State :=
  { s with producer := pc }

/-- The monitor moves on. -/
def State.monitorAt (s : State) (pc : MonitorPc) : State :=
  { s with monitor := pc }

/-- One step of a claim. -/
def getWritingRingPos (cfg : Config) (s : State) : Option State :=
  match s.producer with
  | .idle => if s.runThread then some (s.producerAt .call) else none
  | .call =>
    some (if s.writerPos = -1 then { s.claimSlot 0 with producer := .firstStore }
      else s.producerAt .testReader)
  | .firstStore => some { s with writerPos := s.writerPos + 1, producer := .firstReset }
  | .firstReset => some { s.resetSlot 0 with producer := .idle }
  -- The full ring is waited for in a loop around the two reads.
  | .testReader =>
    some (s.producerAt (if s.writerPos = s.readerPos - 1 then .testReader else .testWrap))
  | .testWrap =>
    some (s.producerAt
      (if s.readerPos = 0 ∧ s.writerPos = cfg.maxRingsize then .testReader else .branch))
  | .branch =>
    some (if s.writerPos = cfg.maxRingsize - 1 then { s.claimSlot 0 with producer := .wrapStore }
      else { s.claimSlot (s.writerPos + 1).toNat with producer := .nextReset })
  | .wrapStore => some { s with writerPos := 0, producer := .wrapReset }
  | .wrapReset => some { s.resetSlot 0 with producer := .idle }
  | .nextReset => some { s.resetSlot (s.writerPos + 1).toNat with producer := .nextStore }
  | .nextStore => some { s with writerPos := s.writerPos + 1, producer := .idle }

/-- The position behind a position. -/
def Config.next (cfg : Config) (position : Int) : Int :=
  if position = cfg.maxRingsize - 1 then 0 else position + 1

/-- The entry the monitor would read next. -/
def State.candidate (cfg : Config) (s : State) : QEntry :=
  s.ringbuffer (cfg.next s.readerPos).toNat

/-- The entry the monitor is reading. -/
def State.item (s : State) : QEntry :=
  s.ringbuffer s.readerPos.toNat

/-- A time stamp in nanoseconds. -/
def nanoseconds (time : Timespec) : Int :=
  time.tvSec.toInt * 1000000000 + time.tvNsec.toInt

/-- The monitor writes the row of the slot it is at. -/
def State.encodeItem (s : State) : State :=
  { s with encoded := s.encoded ++ [s.lastClaimed s.readerPos.toNat] }

/-- One step of the monitor. -/
def sqlMonitorFunc (cfg : Config) (now : Int) (s : State) : Option State :=
  match s.monitor with
  | .loop => some (s.monitorAt (if s.runThread then .holdRun else .shutTest))
  | .holdRun => some (s.monitorAt (if s.runThread then .holdStart else .testStart))
  | .holdStart => some (s.monitorAt (if s.writerPos ≠ -1 then .holdEmpty else .testStart))
  | .holdEmpty =>
    some (s.monitorAt (if s.readerPos ≠ s.writerPos then .holdWrap else .testStart))
  | .holdWrap =>
    some (s.monitorAt
      (if s.readerPos = cfg.maxRingsize - 1 ∧ s.writerPos = 0 then .testStart else .holdPending))
  | .holdPending =>
    some (if (s.candidate cfg).pendingRequest = 0 then
        { s with held := false, monitor := .testStart }
      else s.monitorAt .holdDone)
  | .holdDone =>
    some (if (s.candidate cfg).requestDone ≠ 0 then
        { s with held := false, monitor := .testStart }
      else s.monitorAt .holdEndSec)
  | .holdEndSec =>
    some (if (s.candidate cfg).endTime.tvSec ≠ 0 then { s with held := false, monitor := .holdAge }
      else s.monitorAt .holdEndNsec)
  | .holdEndNsec =>
    some (if (s.candidate cfg).endTime.tvNsec ≠ 0 then { s with held := false, monitor := .holdAge }
      else s.monitorAt .holdStalled)
  -- An entry that is held back costs one sleep and one more round of the loop.
  | .holdAge =>
    some (s.monitorAt
      (if now - nanoseconds (s.candidate cfg).endTime < cfg.requestWait then .loop
      else .holdFinishing))
  | .holdFinishing =>
    some (s.monitorAt
      (if lcState (s.candidate cfg).lifecycle = .finishing then .loop else .testStart))
  | .holdStalled =>
    let since := if s.held then s.heldSince else now
    let pc := if now - since < cfg.requestWait then .loop else .testStart
    some { s with held := true, heldSince := since, monitor := pc }
  | .testStart => some (s.monitorAt (if s.writerPos = -1 then .idle else .testEmpty))
  | .testEmpty => some (s.monitorAt (if s.readerPos = s.writerPos then .idle else .testWrap))
  | .testWrap =>
    some (s.monitorAt
      (if s.readerPos = cfg.maxRingsize - 1 ∧ s.writerPos = 0 then .idle else .advance))
  | .idle => some (s.monitorAt (if s.runThread then .loop else .shutTest))
  | .advance => some { s with readerPos := cfg.next s.readerPos, monitor := .abandonPending }
  | .abandonPending =>
    some (s.monitorAt (if s.item.pendingRequest = 0 then .testLast else .abandonDone))
  | .abandonDone =>
    some (s.monitorAt (if s.item.requestDone ≠ 0 then .testLast else .abandonRun))
  | .abandonRun => some (s.monitorAt (if s.runThread then .abandonEndSec else .testLast))
  | .abandonEndSec =>
    some (s.monitorAt (if s.item.endTime.tvSec ≠ 0 then .abandonLoad else .abandonEndNsec))
  | .abandonEndNsec =>
    some (s.monitorAt (if s.item.endTime.tvNsec ≠ 0 then .abandonLoad else .testLast))
  | .abandonLoad =>
    some (s.monitorAt
      (if lcState s.item.lifecycle = .pending then .abandonCas s.item.lifecycle else .testLast))
  | .abandonCas lc =>
    -- A receive that waited too long is skipped; its completion makes a new entry.
    some (if s.item.lifecycle = lc then
        { s with
          ringbuffer := Function.update s.ringbuffer s.readerPos.toNat
            { s.item with lifecycle := edumpiLc (lcTicket lc) .abandoned }
          held := false
          monitor := .loop }
      else s.monitorAt .testLast)
  | .testLast => some (s.monitorAt (if s.readerPos = s.writerPos then .waitEnd else .encode))
  | .waitEnd => some (s.monitorAt (if s.item.endTime.tvNsec = 0 then .waitRun else .encode))
  | .waitRun => some (s.monitorAt (if s.runThread then .waitEnd else .encode))
  | .encode => some { s.encodeItem with held := false, monitor := .loop }
  | .shutTest =>
    some (s.monitorAt (if s.readerPos ≠ s.writerPos then .shutAdvance else .finished))
  | .shutAdvance => some { s with readerPos := cfg.next s.readerPos, monitor := .shutEncode }
  | .shutEncode => some { s.encodeItem with monitor := .shutTest }
  | .finished => none

/-- One step of the system. -/
def step (cfg : Config) (s : State) : Action → Option State
  | .claim => getWritingRingPos cfg s
  -- The run ends in the application thread, so no claim is in progress then.
  | .finalize => if s.producer = .idle then some { s with runThread := false } else none
  | .write slot entry =>
    some { s with ringbuffer := Function.update s.ringbuffer slot entry }
  | .monitor now => sqlMonitorFunc cfg now s

end EduMpi.SingleRing
