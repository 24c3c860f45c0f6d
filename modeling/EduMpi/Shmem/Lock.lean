import EduMpi.Lib.Run
import EduMpi.Shmem.LockWord
import Mathlib.Logic.Function.Basic

/-! The distributed lock: every remote and every local access to a lock word is one step. -/

namespace EduMpi.Shmem.Lock

open Ints

/-- One lock of a job: its PEs, the PE that serves it, its size, and whether sets are counted. -/
structure Config where
  pes : Nat
  serverPe : Nat
  size : LockSize
  recursive : Bool
  /-- The server is found by a remainder of the number of PEs. -/
  served : serverPe < pes
deriving DecidableEq, Repr

/-- The call that tests the lock: `test_lock` itself, or `set_lock` before it queues. -/
inductive Tester where
  | set
  | test
deriving DecidableEq, Repr

/-- What follows once the counter of nested sets is written. -/
inductive Then where
  /-- The lock was its own already, so the call returns. -/
  | nested
  /-- The test goes on with its exchange at the server. -/
  | attempt (tester : Tester)
  /-- `set_lock` goes on with waiting for its ticket. -/
  | queued (ticket : Int)
  /-- The test has failed. -/
  | retracted (tester : Tester)
  /-- `set_lock` was informed and returns. -/
  | granted
  /-- `clear_lock` goes on with this count. -/
  | cleared (count : Int)
deriving DecidableEq, Repr

/-- The calls that decrement the counter. -/
inductive Decrementer where
  | test (tester : Tester)
  | clear
deriving DecidableEq, Repr

/-- Where a PE stands. -/
inductive Pc where
  | idle
  /-- `set_lock` is about to see whether the lock is its own. -/
  | setMine
  | testMine (tester : Tester)
  | increment (next : Then)
  /-- `pack_first_word` is about to read its own word. -/
  | packRead (one : Int) (next : Then)
  | packSwap (one : Int) (read : Nat) (next : Then)
  | decrement (decrementer : Decrementer)
  /-- The test is about to exchange a free server word. -/
  | testSwap (tester : Tester)
  | getTicket
  | waitTurn (ticket : Int)
  | serverGet
  | serverSwap (read : Nat)
  /-- It polls until the server word names itself. -/
  | serverPoll (peLast : Nat)
  | turnInc (peLast : Nat)
  | subscribe (peLast : Nat)
  /-- It has found a next PE where there should be none. -/
  | repair (peLast : Nat) (expected : Nat) (counter : Int)
  /-- It is about to read its own word, or as server its inform counter, for the first time. -/
  | informFirst
  | informWait (originalCounter : Int) (prevValue : Nat)
  | informRead (originalCounter : Int)
  | prevGet (prevPe : Nat) (prevValue : Int)
  | prevWait (prevPe : Nat) (prevValue : Int)
  /-- The release branch of `clear_lock` looks for the PE to be informed next. -/
  | clearNext
  | tryServer
  | informGet (peNext : Nat)
  | informSwap (peNext : Nat) (read : Nat)
  | informServer (peNext : Nat)
  | resetRead
  | resetSwap (read : Nat)
deriving DecidableEq, Repr

/-- The memory of the lock on all PEs, and where each PE stands. -/
structure State where
  /-- The lock variable of each PE; that of the server also has the last PE of the queue. -/
  word : Nat → Nat
  lockTurn : Int
  lockLastTicket : Int
  lockInform : Int
  /-- The counter the server keeps for itself. -/
  counter : Option Int
  /-- The predecessor the server keeps for itself. -/
  prevPe : Option Nat
  pc : Nat → Pc
  /-- The sets of each PE that have returned and are not cleared; no PE reads this. -/
  depth : Nat → Nat
  /-- The PEs in the order in which the lock is handed over; no PE reads this. -/
  queue : List Nat

def State.initial : State where
  word := fun _ => 0
  lockTurn := 0
  lockLastTicket := 0
  lockInform := 0
  counter := none
  prevPe := none
  pc := fun _ => .idle
  depth := fun _ => 0
  queue := []

/-- A call of a PE, or the next step of the call it is in. -/
inductive Action where
  | setLock (pe : Nat)
  | testLock (pe : Nat)
  | clearLock (pe : Nat)
  | go (pe : Nat)
deriving DecidableEq, Repr

namespace State

variable (c : Config) (s : State) (me : Nat)

def goTo (pc : Pc) : State := { s with pc := Function.update s.pc me pc }

/-- Writes the lock variable of a PE. -/
def write (pe value : Nat) : State := { s with word := Function.update s.word pe value }

/-- A set of the lock returns successfully. -/
def acquired : State :=
  { s with
    pc := Function.update s.pc me .idle
    depth := Function.update s.depth me (s.depth me + 1) }

def enqueue : State := { s with queue := s.queue ++ [me] }

def dequeue : State := { s with queue := s.queue.erase me }

/-- The number of nested sets as the PE itself sees it. -/
def lockGetCount : Int :=
  if me = c.serverPe then s.counter.getD 0 else c.size.lockExtractCounter (s.word me)

/-- What a PE does once its counter is written. -/
def proceed : Then → State
  | .nested => s.acquired me
  | .attempt tester => s.goTo me (.testSwap tester)
  | .queued ticket => s.goTo me (.waitTurn ticket)
  | .retracted .set => s.goTo me .getTicket
  | .retracted .test => s.goTo me .idle
  | .granted => s.acquired me
  | .cleared count => s.goTo me (if count = 0 then .clearNext else .idle)

/-- The count the server keeps after one more set. -/
def insertCounter : Option Int → Int
  | some count => int32 (count + 1)
  | none => 1

/-- The server counts in its own memory, every other PE in the first half of its word. -/
def incrementCounter (next : Then) : State :=
  if me = c.serverPe then { s with counter := some (insertCounter s.counter) }.proceed me next
  else s.goTo me (.packRead (int32 (c.size.lockExtractCounter (s.word me) + 1)) next)

/-- The count after a clear. -/
def decremented (count : Int) : Int := if c.recursive then count - 1 else 0

/-- What follows a decrement that has left this count. -/
def afterDecrement (count : Int) : Decrementer → Then
  | .test tester => .retracted tester
  | .clear => .cleared count

def decrementCounter (decrementer : Decrementer) : State :=
  if me = c.serverPe then
    match s.counter with
    | none => s.proceed me (afterDecrement (-1) decrementer)
    | some count =>
      -- A counter that has come down to zero is removed.
      if decremented c count ≤ 0 then
        { s with counter := none }.proceed me (afterDecrement 0 decrementer)
      else
        { s with counter := some (decremented c count) }.proceed me
          (afterDecrement (decremented c count) decrementer)
  else
    let left := decremented c (c.size.lockExtractCounter (s.word me))
    if 0 < c.size.lockExtractCounter (s.word me) then
      s.goTo me (.packRead left (afterDecrement left decrementer))
    else s.proceed me (afterDecrement (-1) decrementer)

/-- An exchange of a word: the value of one branch if it had the expected one, else of the other. -/
def cswap (pe expected value : Nat) (done : State → State) (again : Nat → State) : State :=
  if s.word pe = expected then done (s.write pe value) else again (s.word pe)

/-- The server has seen that its predecessor is done with the lock. -/
def takesOver : State := { s with queue := s.queue.dropWhile (· ≠ me) }

/-- The PE to wait for; the first in the queue gets its own number instead of -1. -/
def predecessor : Int → Option Nat
  | .ofNat peLast => some peLast
  | .negSucc 0 => some me
  | .negSucc _ => none

/-- One step of a PE inside a call; none while it is blocked. -/
def go : Option State :=
  match s.pc me with
  | .idle => none
  | .setMine => some (s.goTo me
      (if 0 < s.lockGetCount c me then .increment .nested else .testMine .set))
  | .testMine tester => some (s.goTo me
      (.increment (if 0 < s.lockGetCount c me then .nested else .attempt tester)))
  | .increment next => some (s.incrementCounter c me next)
  | .packRead one next => some (s.goTo me (.packSwap one (s.word me) next))
  | .packSwap one read next =>
    some (s.cswap me read (c.size.packFirstWord one read) (·.proceed me next)
      fun now => s.goTo me (.packSwap one now next))
  | .decrement decrementer => some (s.decrementCounter c me decrementer)
  | .testSwap tester =>
    some (s.cswap c.serverPe 0 (c.size.lockPackPeNextPeLast (-1) me)
      (fun t => (t.enqueue me).acquired me)
      fun _ => s.goTo me (.decrement (.test tester)))
  | .getTicket => some ({ s with lockLastTicket := int32 (s.lockLastTicket + 1) }.goTo me
      (.increment (.queued s.lockLastTicket)))
  | .waitTurn ticket => if s.lockTurn = ticket then some (s.goTo me .serverGet) else none
  | .serverGet => some (s.goTo me (.serverSwap (s.word c.serverPe)))
  | .serverSwap read =>
    (c.size.lockPackPeLast me read).bind fun value =>
      (predecessor me (c.size.lockExtractPeLast read)).map fun peLast =>
        s.cswap c.serverPe read value (fun t => (t.enqueue me).goTo me (.serverPoll peLast))
          fun now => s.goTo me (.serverSwap now)
  | .serverPoll peLast =>
    if c.size.lockExtractPeLast (s.word c.serverPe) = me then some (s.goTo me (.turnInc peLast))
    else some s
  | .turnInc peLast =>
    let t := { s with lockTurn := int32 (s.lockTurn + 1) }
    some (if peLast = me then t.acquired me else t.goTo me (.subscribe peLast))
  | .subscribe peLast =>
    let prev := s.word peLast
    let t := s.write peLast (c.size.fadd prev (me + 1))
    let t := if me = c.serverPe then { t with prevPe := some peLast } else t
    some (t.goTo me
      (if c.size.lockExtractPeNext prev = -1 then .informFirst
        else .repair peLast ((c.size.faddResult prev + (me + 1)) % 2 ^ 64)
          (c.size.lockExtractCounter prev)))
  | .repair peLast expected counter =>
    -- The exchange cuts its arguments to the size of the word, the loop compares all their bits.
    let now := s.word peLast
    let t := if now = c.size.cut expected then s.write peLast (c.size.pack2Words counter (me + 1))
      else s
    some (t.goTo me (if now = expected then .informFirst
      else .repair peLast now (c.size.lockExtractCounter now)))
  | .informFirst =>
    if me = c.serverPe then
      match s.prevPe with
      | none => none
      | some prevPe => some ({ s with prevPe := none }.goTo me (.prevGet prevPe s.lockInform))
    else
      let prevValue := s.word me
      let originalCounter := c.size.lockExtractCounter prevValue
      some (s.goTo me (if c.size.informed prevValue then .packRead originalCounter .granted
        else .informWait originalCounter prevValue))
  | .informWait originalCounter prevValue =>
    if s.word me = prevValue then none else some (s.goTo me (.informRead originalCounter))
  | .informRead originalCounter =>
    some (s.goTo me (if c.size.informed (s.word me) then .packRead originalCounter .granted
      else .informWait originalCounter (s.word me)))
  | .prevGet prevPe prevValue =>
    let remote := s.word prevPe
    if 0 < c.size.lockExtractCounter remote ∧ c.size.lockExtractPeNext remote = me then
      some (s.goTo me (.prevWait prevPe prevValue))
    else some ((s.takesOver me).acquired me)
  | .prevWait prevPe prevValue =>
    if s.lockInform = prevValue then none else some (s.goTo me (.prevGet prevPe s.lockInform))
  | .clearNext => some (s.goTo me
      (match c.size.lockExtractPeNext (s.word me) with
      | .ofNat peNext => if c.serverPe = peNext then .informServer peNext else .informGet peNext
      | .negSucc _ => .tryServer))
  | .tryServer =>
    some (s.cswap c.serverPe (c.size.lockPackPeNextPeLast (-1) me) 0
      (fun t => (t.dequeue me).goTo me .resetRead) fun _ => s.goTo me .clearNext)
  | .informGet peNext => some (s.goTo me (.informSwap peNext (s.word peNext)))
  | .informSwap peNext read =>
    some (s.cswap peNext read (c.size.inform read)
      (fun t => (t.dequeue me).goTo me .resetRead) fun now => s.goTo me (.informSwap peNext now))
  | .informServer _ => some (({ s with lockInform := int32 (s.lockInform + 1) }.dequeue me).goTo me
      .resetRead)
  | .resetRead => some (s.goTo me (.resetSwap (s.word me)))
  | .resetSwap read =>
    some (s.cswap me read (c.size.packSecondWord 0 read)
      (·.goTo me .idle) fun now => s.goTo me (.resetSwap now))

/-- One action of the job; a PE starts a call only outside of one. -/
def step : Action → Option State
  | .setLock pe => if pe < c.pes ∧ s.pc pe = .idle then some (s.goTo pe .setMine) else none
  | .testLock pe =>
    if pe < c.pes ∧ s.pc pe = .idle then some (s.goTo pe (.testMine .test)) else none
  | .clearLock pe =>
    -- Without counting, one clear undoes all the sets before it.
    if pe < c.pes ∧ s.pc pe = .idle then
      some ({ s with
        depth := Function.update s.depth pe (if c.recursive then s.depth pe - 1 else 0) }.goTo pe
          (.decrement .clear))
    else none
  | .go pe => if pe < c.pes then s.go c pe else none

end State

end EduMpi.Shmem.Lock
