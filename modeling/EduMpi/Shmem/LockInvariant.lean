import EduMpi.Lib.Queue
import EduMpi.Shmem.Lock

/-! What holds between the steps of the distributed lock, whoever takes them. -/

namespace EduMpi.Shmem.Lock

open Ints Queue LockSize
open Function (update update_of_ne update_self)

variable (c : Config) (strict : Prop)

/-- The counts a PE can keep: the server counts in an `int`, the others in half a word. -/
def Config.limit (pe : Nat) : Int := if pe = c.serverPe then 2 ^ 31 else c.size.room

namespace State

variable (s : State) (pe : Nat)

/-- The count of a PE, or at the server the last PE of the queue. -/
def first : Nat := s.word pe / c.size.base

/-- The PE that is informed next, counted from one. -/
def second : Nat := s.word pe % c.size.base

/-- The count of a PE as it is stored. -/
def level : Int := if pe = c.serverPe then s.counter.getD 0 else s.first c pe

end State

/-- What a PE's place in the protocol depends on, besides where it stands. -/
structure View where
  depth : Nat
  queued : Prop
  leads : Prop
  level : Int
  next : Nat

def State.view (s : State) (pe : Nat) : View where
  depth := s.depth pe
  queued := pe ∈ s.queue
  leads := s.queue.head? = some pe
  level := s.level c pe
  next := s.second c pe

namespace View

variable (v : View) (me : Nat)

/-- The sets that are not cleared are covered by a count; if strictly, the count is their number. -/
def Covers (count : Int) : Prop := (v.depth : Int) ≤ count ∧ (strict → count ≤ v.depth)

/-- It has nothing to do with the lock but for this count. -/
def Out (count : Int) : Prop := ¬ v.queued ∧ v.depth = 0 ∧ v.level = count ∧ v.next = 0

/-- The lock is its own. -/
def Owns : Prop := v.leads ∧ 0 < v.level ∧ v.level < c.limit me ∧ v.Covers strict v.level

/-- It has called `clear_lock` on a lock that is its own. -/
def Clears : Prop :=
  v.leads ∧ 0 < v.level ∧ v.level < c.limit me
    ∧ v.Covers strict (State.decremented c v.level)

/-- It has put itself behind another PE that does not know of it yet. -/
def Queues : Prop := v.queued ∧ ¬ v.leads ∧ v.depth = 0 ∧ v.level = 1

/-- It waits behind another PE, or has been informed; the server is informed in another way. -/
def Waits : Prop :=
  v.queued ∧ v.depth = 0 ∧ (¬ v.leads → v.level = 1)
    ∧ (v.leads → v.level = if me = c.serverPe then 1 else (1 + c.size.base / 2 : Nat))

/-- It hands the lock over; the server may have taken it over already. -/
def Releases : Prop :=
  v.depth = 0 ∧ v.level = 0 ∧ (v.leads ∨ (¬ v.queued ∧ v.next = c.serverPe + 1))

/-- It writes a count into its own word. -/
def Packs (one : Int) : Then → Prop
  | .nested => v.Owns c strict me ∧ one = v.level + 1 ∧ one < c.limit me
  | .attempt _ | .queued _ => v.Out 0 ∧ one = 1
  | .retracted _ => v.Out 1 ∧ one = 0
  | .granted =>
    v.Waits c me ∧ v.leads ∧ 0 < one ∧ one < c.limit me ∧ (strict → one = 1)
  | .cleared count => count = one ∧ v.Clears c strict me ∧ one = State.decremented c v.level

/-- What is known of a PE by where it stands. -/
def Stands : Pc → Prop
  | .idle | .setMine | .testMine .test => v.Out 0 ∨ v.Owns c strict me
  | .testMine .set | .getTicket => v.Out 0
  | .increment .nested => v.Owns c strict me
  | .increment (.attempt _) | .increment (.queued _) => v.Out 0
  -- Only these three counts are raised before anything else is done.
  | .increment _ => False
  | .packRead one next | .packSwap one _ next => me ≠ c.serverPe ∧ v.Packs c strict me one next
  | .decrement (.test _) | .testSwap _ | .waitTurn _ | .serverGet | .serverSwap _ => v.Out 1
  | .decrement .clear => v.Out 0 ∨ v.Clears c strict me
  | .serverPoll peLast | .turnInc peLast =>
    (peLast = me ∧ v.leads ∧ v.depth = 0 ∧ v.level = 1) ∨ (peLast ≠ me ∧ v.Queues)
  | .subscribe _ => v.Queues
  -- The repair is for a queue that names no such PE; the links exclude it.
  | .repair .. => False
  | .informFirst => v.Waits c me
  | .informWait original _ | .informRead original =>
    me ≠ c.serverPe ∧ v.Waits c me ∧ 0 < original ∧ original < c.limit me ∧ (strict → original = 1)
  | .prevGet _ _ | .prevWait _ _ => me = c.serverPe ∧ v.Waits c me
  | .clearNext | .tryServer => v.Releases c
  | .informGet peNext | .informSwap peNext _ =>
    peNext ≠ c.serverPe ∧ v.leads ∧ v.depth = 0 ∧ v.level = 0 ∧ v.next = peNext + 1
  | .informServer _ => v.Releases c ∧ v.next = c.serverPe + 1
  | .resetRead | .resetSwap _ => ¬ v.queued ∧ v.depth = 0 ∧ v.level = 0

end View

/-- What a PE and the one behind it know of each other, by where the latter stands. -/
def LinkedAt (a b next : Nat) (prevPe : Option Nat) : Pc → Prop
  | .serverPoll peLast | .turnInc peLast | .subscribe peLast => peLast = a ∧ next = 0
  | .informFirst => next = b + 1 ∧ (b = c.serverPe → prevPe = some a)
  | .informWait _ _ | .informRead _ => next = b + 1
  | .prevGet prev _ | .prevWait prev _ => prev = a ∧ next = b + 1
  -- Nobody else has a PE in front of itself.
  | _ => False

/-- What the server keeps for itself matters to its own link only. -/
theorem LinkedAt.of_prev {c : Config} {a b next : Nat} {prev prev' : Option Nat} {pc : Pc}
    (linked : LinkedAt c a b next prev pc) (same : b = c.serverPe → prev = prev') :
    LinkedAt c a b next prev' pc := by
  -- Only a PE that was just told its turn looks at what the server keeps.
  cases pc <;> first
    | exact linked
    | exact ⟨linked.1, fun server => same server ▸ linked.2 server⟩

def State.Linked (s : State) (a b : Nat) : Prop :=
  LinkedAt c a b (s.second c a) s.prevPe (s.pc b)

/-- The queue is the order in which the words of the PEs name each other. -/
structure Inv (s : State) : Prop where
  nodup : s.queue.Nodup
  members : ∀ pe ∈ s.queue, pe < c.pes
  /-- The server word names the last PE of the queue. -/
  last : s.first c c.serverPe = (s.queue.getLast?.map (· + 1)).getD 0
  ends : ∀ pe, s.queue.getLast? = some pe → s.second c pe = 0
  room : ∀ pe, s.second c pe < c.size.room
  counted : ∀ count, s.counter = some count → 0 < count
  stands : ∀ pe, (s.view c pe).Stands c strict pe (s.pc pe)
  link : ∀ a b, Behind s.queue a b → s.Linked c a b

variable {c strict} {s t : State} {me : Nat}

theorem Inv.initial : Inv c strict State.initial where
  nodup := List.nodup_nil
  members := fun _ member => absurd member List.not_mem_nil
  last := Nat.zero_div _
  ends := fun _ last => by cases last
  -- A word of zeros names nobody.
  room := fun _ => by
    change 0 % _ < _
    rw [Nat.zero_mod]
    cases c.size <;> decide
  counted := fun _ kept => by cases kept
  -- Everybody is outside, whether the count is kept by the server or in the word.
  stands := fun pe => by
    refine .inl ⟨List.not_mem_nil, rfl, ?_, Nat.zero_mod _⟩
    change (if _ then _ else _) = _
    split
    · rfl
    · exact congrArg _ (Nat.zero_div _)
  link := fun _ _ behind => behind.elim

/-- What is known of a PE whose place is known. -/
theorem Inv.stands_at (inv : Inv c strict s) {pc : Pc} (here : s.pc me = pc) :
    (s.view c me).Stands c strict me pc :=
  here ▸ inv.stands me

theorem State.word_eq (s : State) (pe : Nat) :
    s.word pe = c.size.ofHalves (s.first c pe) (s.second c pe) :=
  (ofHalves_self ..).symm

/-- The count of the server is not in its word. -/
theorem State.level_congr (counter : t.counter = s.counter)
    (firsts : ∀ q, q ≠ c.serverPe → t.first c q = s.first c q) : t.level c = s.level c := by
  funext q
  unfold State.level
  split
  · -- The server keeps its count beside its word, and all others in theirs.
    rw [counter]
  · rw [firsts q (by assumption)]

/-- Writing a word changes the first half of that word only. -/
theorem State.first_write (s : State) (pe one two : Nat) (fits : two < c.size.base) :
    (s.write pe (c.size.ofHalves one two)).first c = update (s.first c) pe one := by
  change (· / c.size.base) ∘ update s.word pe _ = _
  rw [Function.comp_update, ofHalves_div fits]
  rfl

/-- Writing a word changes the second half of that word only. -/
theorem State.second_write (s : State) (pe one two : Nat) (fits : two < c.size.base) :
    (s.write pe (c.size.ofHalves one two)).second c = update (s.second c) pe two := by
  change (· % c.size.base) ∘ update s.word pe _ = _
  rw [Function.comp_update, ofHalves_mod fits]
  rfl

/-- A PE that leads the queue or is not in it stands behind nobody. -/
theorem Inv.not_behind (inv : Inv c strict s) (free : me ∉ s.queue ∨ s.queue.head? = some me)
    (a : Nat) : ¬ Behind s.queue a me := by
  intro behind
  rcases free with outside | leads
  · exact outside behind.mem_right
  · exact behind.not_head inv.nodup leads

/-- A step that concerns nobody but the PE that takes it. -/
theorem Inv.own (me : Nat) (inv : Inv c strict s) (queue : t.queue = s.queue)
    (last : t.first c c.serverPe = s.first c c.serverPe)
    (pcs : ∀ q, q ≠ me → t.pc q = s.pc q) (views : ∀ q, q ≠ me → t.view c q = s.view c q)
    (prev : me ≠ c.serverPe → t.prevPe = s.prevPe)
    (room : t.second c me < c.size.room)
    (next : me ∈ s.queue → t.second c me = s.second c me)
    (counted : ∀ count, t.counter = some count → 0 < count)
    (stands : (t.view c me).Stands c strict me (t.pc me))
    (link : ∀ a, Behind s.queue a me → t.Linked c a me) : Inv c strict t := by
  -- Who is next is read only from PEs in the queue, where it did not change.
  have second : ∀ q, q ∈ s.queue → t.second c q = s.second c q := by
    intro q member
    by_cases same : q = me
    · exact same ▸ next (same ▸ member)
    · exact congrArg View.next (views q same)
  constructor
  · exact queue ▸ inv.nodup
  · exact queue ▸ inv.members
  · -- The queue is the same, so what names its end still does.
    rw [last, queue]
    exact inv.last
  · rw [queue]
    intro pe isLast
    exact (second pe (List.mem_of_getLast? isLast)).trans (inv.ends pe isLast)
  · intro pe
    by_cases same : pe = me
    · exact same ▸ room
    · exact (congrArg View.next (views pe same)).trans_lt (inv.room pe)
  · exact counted
  · -- Nobody but the PE itself sees the step.
    intro pe
    by_cases same : pe = me
    · exact same ▸ stands
    · rw [views pe same, pcs pe same]
      exact inv.stands pe
  · -- A link is seen from behind: its own state and the next entry of the one in front.
    rw [queue]
    intro a b behind
    by_cases same : b = me
    · exact same ▸ link a (same ▸ behind)
    · have linked := inv.link a b behind
      unfold State.Linked at linked ⊢
      rw [pcs b same, second a behind.mem_left]
      exact linked.of_prev fun server => (prev fun own => same (server.trans own.symm)).symm

end EduMpi.Shmem.Lock
