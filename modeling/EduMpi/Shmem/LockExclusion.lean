import EduMpi.Shmem.LockHandover

/-! Who holds the distributed lock, and how often it has to be cleared. -/

namespace EduMpi.Shmem.Lock

open Ints Queue LockSize Machine

variable {c : Config} {strict : Prop} {s t : State} {me : Nat} {pc : Pc}

/-- A set that is about to be counted still fits its counter. -/
def Config.fits (c : Config) (s : State) : Action → Bool
  | .go pe =>
    match s.pc pe with
    | .increment _ => s.lockGetCount c pe + 1 < c.limit pe
    | _ => true
  | _ => true

/-- A PE that is about to look for its inform bit does not find it in a word of four bytes. -/
def Config.informedLate (c : Config) (s : State) : Action → Bool
  | .go pe =>
    match s.pc pe with
    | .informFirst => pe = c.serverPe ∨ c.size = .eight ∨ c.size.informed (s.word pe) = false
    | _ => true
  | _ => true

/-- The count that is incremented is read as it is stored. -/
theorem Inv.level_fits {next : Then} (inv : Inv c strict s) (here : s.pc me = .increment next)
    (fits : c.fits s (.go me) = true) : s.level c me + 1 < c.limit me := by
  have stands := inv.stands_at here
  unfold Config.fits at fits
  simp only [here, decide_eq_true_eq] at fits
  have room := c.one_lt_limit me
  have small : s.level c me < c.limit me := by
    -- What is read fits in the three places where a count is raised.
    cases next with
    | nested => exact stands.2.2.1
    | attempt | queued =>
      have : s.level c me = 0 := stands.2.2.1
      omega
    | retracted | granted | cleared => exact stands.elim
  rwa [inv.lockGetCount_eq small] at fits

/-- Every step of a PE inside a call keeps the invariant. -/
theorem Inv.go (inv : Inv c strict s) (wide : c.pes < c.size.room) (small : me < c.pes)
    (fits : c.fits s (.go me) = true) (late : strict → c.informedLate s (.go me) = true)
    (taken : s.go c me = some t) : Inv c strict t := by
  have stands := inv.stands me
  have next := taken
  unfold State.go at next
  -- One lemma for each place of the code; those that only read go on as they are.
  cases here : s.pc me with rw [here] at stands next
  | idle => cases next
  | setMine => exact inv.go_setMine taken here
  | testMine => exact inv.go_testMine taken here
  | increment => exact inv.go_increment taken here (inv.level_fits here fits)
  | packRead =>
    cases next
    exact inv.goTo_free stands.2.free stands
  | packSwap => exact inv.go_packSwap taken here
  | decrement => exact inv.go_decrement taken here
  | testSwap => exact inv.go_testSwap wide small here taken
  | getTicket =>
    cases next
    exact (inv.untouched _ _ _).goTo_free (.inl stands.1) stands
  | waitTurn =>
    -- The wait loops have no step until their condition holds.
    obtain ⟨_, ⟨⟩⟩ := Option.ite_none_right_eq_some.mp next
    exact inv.goTo_free (.inl stands.1) stands
  | serverGet | resetRead =>
    cases next
    exact inv.goTo_free (.inl stands.1) stands
  | serverSwap => exact inv.go_serverSwap wide small here taken
  | serverPoll =>
    dsimp only at next
    split at next <;> cases next
    · exact inv.goTo_behind here stands fun a linked => linked
    · exact inv
  | turnInc => exact inv.go_turnInc taken here
  | subscribe => exact inv.go_subscribe wide small here taken
  -- The repair is never reached.
  | repair => exact stands.elim
  | informFirst =>
    refine inv.go_informFirst taken here fun other exactly => ?_
    have clear := late exactly
    unfold Config.informedLate at clear
    simp only [here, decide_eq_true_eq] at clear
    exact clear.resolve_left other
  -- Waiting does not change what is known.
  | informWait | prevWait =>
    obtain ⟨_, ⟨⟩⟩ := Option.ite_none_left_eq_some.mp next
    exact inv.goTo_behind here stands fun a linked => linked
  | informRead => exact inv.go_informRead taken here
  | prevGet => exact inv.go_prevGet here taken
  | clearNext => exact inv.go_clearNext taken here
  | tryServer => exact inv.go_tryServer wide small here taken
  | informGet =>
    cases next
    exact inv.goTo_free (.inr stands.2.1) stands
  | informSwap => exact inv.go_informSwap here taken
  | informServer => exact inv.go_informServer here taken
  | resetSwap => exact inv.go_resetSwap taken wide here

/-- A clear leaves the sets that are not cleared covered by the count it will write. -/
theorem Inv.start_clear (inv : Inv c strict s) (idle : s.pc me = .idle) :
    Inv c strict (State.goTo { s with
      depth := Function.update s.depth me (if c.recursive then s.depth me - 1 else 0) } me
        (.decrement .clear)) := by
  have stands := inv.stands_at idle
  have free : me ∉ s.queue ∨ s.queue.head? = some me :=
    Or.imp (fun out => out.1) (fun owns => owns.1) stands
  refine inv.settle (t := s) (Recounts.refl inv) free ?_
  -- Clearing a lock that is not held changes nothing but the place.
  rcases stands with ⟨outside, depth, level, next⟩ | ⟨leads, positive, fits, covers⟩
  · refine .inl ⟨outside, ?_, level, next⟩
    have : s.depth me = 0 := depth
    rw [this]
    split <;> rfl
  refine .inr ⟨leads, positive, fits, ?_⟩
  obtain ⟨atMost, atLeast⟩ := covers
  change (s.depth me : Int) ≤ s.level c me at atMost
  change strict → s.level c me ≤ s.depth me at atLeast
  change 0 < s.level c me at positive
  unfold View.Covers State.decremented
  dsimp only
  -- With nesting one level is given up, without it all of them are.
  split
  · exact ⟨by omega, fun exactly => by have := atLeast exactly; omega⟩
  · exact ⟨Int.le_refl _, fun _ => Int.le_refl _⟩

/-- Every action keeps the invariant. -/
theorem Inv.step {action : Action} (inv : Inv c strict s) (wide : c.pes < c.size.room)
    (fits : c.fits s action = true) (late : strict → c.informedLate s action = true)
    (taken : s.step c action = some t) : Inv c strict t := by
  cases action with
  | setLock pe | testLock pe =>
    simp only [State.step, Option.ite_none_right_eq_some, Option.some.injEq] at taken
    obtain ⟨⟨_, idle⟩, rfl⟩ := taken
    have rests := inv.stands_at idle
    -- Whoever is idle is outside or holds the lock.
    exact inv.goTo_free (Or.imp (fun out => out.1) (fun owns => owns.1) rests) rests
  | clearLock pe =>
    simp only [State.step, Option.ite_none_right_eq_some, Option.some.injEq] at taken
    obtain ⟨⟨_, idle⟩, rfl⟩ := taken
    exact inv.start_clear idle
  | go pe =>
    simp only [State.step, Option.ite_none_right_eq_some] at taken
    exact inv.go wide taken.1 fits late taken.2

/-- A PE with a set that is not cleared leads the queue. -/
theorem View.Stands.leads {v : View} (stands : v.Stands c strict me pc) (holds : 0 < v.depth) :
    v.leads := by
  have out {count : Int} (out : v.Out count) : v.leads := by
    have := out.2.1
    omega
  have zero (depth : v.depth = 0) : v.leads := by omega
  -- By the place: a positive depth is excluded wherever the lock is not held.
  cases pc with
  | idle | setMine => exact stands.elim out fun owns => owns.1
  | testMine tester =>
    cases tester with
    | set => exact out stands
    | test => exact stands.elim out fun owns => owns.1
  | increment next =>
    cases next with
    | nested => exact stands.1
    | attempt | queued => exact out stands
    | retracted | granted | cleared => exact stands.elim
  | packRead one next | packSwap one read next =>
    obtain ⟨_, packs⟩ := stands
    cases next with
    | nested => exact packs.1.1
    | attempt | queued | retracted => exact out packs.1
    | granted => exact packs.2.1
    | cleared => exact packs.2.1.1
  | decrement decrementer =>
    cases decrementer with
    | test => exact out stands
    | clear => exact stands.elim out fun clears => clears.1
  | testSwap | waitTurn | serverGet | serverSwap | getTicket => exact out stands
  | serverPoll | turnInc => exact stands.elim (fun own => own.2.1) fun other => zero other.2.2.2.1
  | subscribe | prevGet | prevWait => exact zero stands.2.2.1
  | repair => exact stands.elim
  | informFirst | resetRead | resetSwap => exact zero stands.2.1
  | informWait | informRead => exact zero stands.2.1.2.1
  | clearNext | tryServer => exact zero stands.1
  | informServer => exact zero stands.1.1
  | informGet | informSwap => exact stands.2.1

/-- The steps of a run in which the PEs and their sets fit the word keep the invariant. -/
theorem Inv.exec {actions : List Action} (wide : c.pes < c.size.room)
    (fits : Along (State.step c) (fun s action => c.fits s action = true) State.initial actions)
    (ran : exec (State.step c) State.initial actions = some s) : Inv c False s :=
  exec_keeps_along (fun _ _ _ inv fits taken => inv.step wide fits (fun absurd => absurd.elim) taken)
    Inv.initial fits ran

/-- In every run of any number of PEs whose numbers fit half the lock word, and in which no count
of nested sets exceeds its counter, at most one PE has a set of the lock that it has not cleared. -/
theorem at_most_one_holds (c : Config) (actions : List Action) (s : State)
    (wide : c.pes < c.size.room)
    (fits : Along (State.step c) (fun s action => c.fits s action = true) State.initial actions)
    (ran : exec (State.step c) State.initial actions = some s) (p q : Nat)
    (holds : 0 < s.depth p) (also : 0 < s.depth q) : p = q := by
  -- Whoever holds the lock leads the queue, and only one PE does.
  have inv := Inv.exec wide fits ran
  have first := (inv.stands p).leads holds
  have second := (inv.stands q).leads also
  exact Option.some.inj (first.symm.trans second)

/-- Three PEs share a lock that the first of them serves. -/
def threePes (size : LockSize) : Config where
  pes := 3
  serverPe := 0
  size := size
  recursive := true
  served := Nat.succ_pos 2

/-- The second PE takes the lock, the third queues for it, and the second hands it over before the
third looks for the first time. -/
def handedOver : List Action :=
  (.testLock 1 :: List.replicate 5 (.go 1)) ++ (.setLock 2 :: List.replicate 19 (.go 2))
    ++ (.clearLock 1 :: List.replicate 8 (.go 1)) ++ List.replicate 3 (.go 2)

theorem third_pe_alone_holds : ∃ s, exec (State.step (threePes .eight)) State.initial handedOver
    = some s ∧ 0 < s.depth 2 ∧ ∀ q, 0 < s.depth q → q = 2 := by
  refine reaches_of_decide (P := fun s => 0 < s.depth 2) (by decide +kernel)
    fun s ran holds => ⟨holds, fun q also => ?_⟩
  exact at_most_one_holds (threePes .eight) handedOver s (by decide) (by decide +kernel) ran q 2
    also holds

/-- As many PEs as half a word of four bytes has values. -/
def manyPes : Config where
  pes := 65536
  serverPe := 0
  size := .four
  recursive := true
  served := Nat.succ_pos 65535

/-- The number of the last PE is cut off when it takes the lock, so another PE finds it free. -/
theorem two_pes_hold : ∃ s, exec (State.step manyPes) State.initial
    ((.testLock 65535 :: List.replicate 5 (.go 65535)) ++ (.testLock 1 :: List.replicate 5 (.go 1)))
      = some s ∧ 0 < s.depth 65535 ∧ 0 < s.depth 1 :=
  exec_reaches (by decide +kernel)

/-- In every run of any number of PEs whose numbers fit half the lock word, in which no count of
nested sets exceeds its counter and no PE finds its inform bit in a word of four bytes on first
sight, another PE than the server has between its calls the count of its uncleared sets in its word,
and a clear brings the count down by one and hands the lock over exactly when none is left. -/
theorem count_survives_handover (c : Config) (actions : List Action) (s : State)
    (wide : c.pes < c.size.room) (recursive : c.recursive = true)
    (fits : Along (State.step c)
      (fun s action => c.fits s action = true ∧ c.informedLate s action = true)
      State.initial actions)
    (ran : exec (State.step c) State.initial actions = some s) (pe : Nat)
    (other : pe ≠ c.serverPe) :
    (s.pc pe = .idle → c.size.lockExtractCounter (s.word pe) = s.depth pe
      ∧ (s.depth pe < c.size.base / 2 → c.size.informed (s.word pe) = false))
    ∧ (s.pc pe = .decrement .clear → c.size.lockExtractCounter (s.word pe) = s.depth pe + 1
      ∨ c.size.lockExtractCounter (s.word pe) = 0 ∧ s.depth pe = 0)
    ∧ ∀ one count t, s.pc pe = .packSwap one (s.word pe) (.cleared count) → s.go c pe = some t →
      c.size.lockExtractCounter (t.word pe) = t.depth pe
        ∧ (t.pc pe = .clearNext ↔ t.depth pe = 0) := by
  have inv : Inv c True s := exec_keeps_along
    (fun _ _ _ inv ok taken => inv.step wide ok.1 (fun _ => ok.2) taken) Inv.initial fits ran
  have stands := inv.stands pe
  have room := c.one_lt_limit pe
  have stored : s.level c pe = s.first c pe := if_neg other
  refine ⟨fun idle => ?_, fun clears => ?_, fun one count t swaps taken => ?_⟩
  · -- Between its calls the word holds the depth, and no inform bit.
    rw [idle] at stands
    have agrees : s.level c pe = s.depth pe ∧ s.level c pe < c.limit pe := by
      rcases stands with ⟨_, depth, level, _⟩ | ⟨_, _, small, atMost, atLeast⟩
      · change s.depth pe = 0 at depth
        change s.level c pe = 0 at level
        omega
      · exact ⟨Int.le_antisymm (atLeast trivial) atMost, small⟩
    refine ⟨(inv.lockExtractCounter_eq other agrees.2).trans agrees.1, fun clear => ?_⟩
    have narrow := Nat.lt_of_lt_of_le (inv.room pe) c.size.room_le_base
    rw [s.word_eq (c := c) pe, informed_eq (inv.first_lt wide pe) narrow, decide_eq_false_iff_not]
    omega
  · -- A clear has lowered the depth, but not yet the word.
    rw [clears] at stands
    rcases stands with ⟨_, depth, level, _⟩ | ⟨_, _, small, atMost, atLeast⟩
    · change s.level c pe = 0 at level
      exact .inr ⟨(inv.lockExtractCounter_eq other (by omega)).trans level, depth⟩
    · have count := Int.le_antisymm (atLeast trivial) atMost
      unfold State.decremented at count
      rw [if_pos recursive] at count
      change s.level c pe - 1 = s.depth pe at count
      exact .inl ((inv.lockExtractCounter_eq other small).trans (by omega))
  · -- The exchange of the clear is the moment at which the two agree again.
    rw [swaps] at stands
    obtain ⟨_, packs⟩ := stands
    obtain ⟨least, small⟩ := packs.bounds
    obtain ⟨rfl, ⟨_, _, _, atMost, atLeast⟩, left⟩ := packs
    rw [← left] at atMost atLeast
    have agrees : count = s.depth pe := Int.le_antisymm (atLeast trivial) atMost
    obtain ⟨number, rfl⟩ := Int.eq_ofNat_of_zero_le least
    have fitting : number < c.size.room := by
      unfold Config.limit at small
      omega
    simp only [State.go, swaps, State.cswap, Option.some.injEq] at taken
    subst taken
    constructor
    · change c.size.lockExtractCounter (Function.update s.word pe _ pe) = s.depth pe
      rw [Function.update_self, s.word_eq (c := c) pe, packFirstWord_eq fitting (inv.room pe),
        lockExtractCounter_eq fitting (inv.room pe)]
      exact agrees
    · change Function.update s.pc pe (if (number : Int) = 0 then .clearNext else .idle) pe
        = .clearNext ↔ s.depth pe = 0
      rw [Function.update_self]
      split
      · exact iff_of_true rfl (by omega)
      · exact iff_of_false Pc.noConfusion (by omega)

/-- In a word of eight bytes the count is one although the inform bit was there on first sight. -/
theorem third_pe_counts_once : ∃ s, exec (State.step (threePes .eight)) State.initial handedOver
    = some s ∧ s.depth 2 = 1 ∧ eight.lockExtractCounter (s.word 2) = 1
      ∧ eight.informed (s.word 2) = false := by
  refine reaches_of_decide (P := fun s => s.pc 2 = .idle ∧ s.depth 2 = 1) (by decide +kernel)
    fun s ran ⟨idle, depth⟩ => ?_
  have counts := (count_survives_handover (threePes .eight) handedOver s (by decide) rfl
    (by decide +kernel) ran 2 (by decide)).1 idle
  rw [depth] at counts
  exact ⟨depth, counts.1, counts.2 (by decide)⟩

/-- In a word of four bytes the inform bit found on first sight is taken for 32768 sets, and the
clear of the only set does not hand the lock over. -/
theorem third_pe_counts_inform_bit :
    ∃ s, exec (State.step (threePes .four)) State.initial
      (handedOver ++ .clearLock 2 :: List.replicate 3 (.go 2)) = some s
      ∧ s.pc 2 = .idle ∧ s.depth 2 = 0 ∧ four.lockExtractCounter (s.word 2) = 32768
      ∧ four.informed (s.word 2) = true ∧ four.lockExtractPeLast (s.word 0) = 2 :=
  exec_reaches (by decide +kernel)

/-- In every such run no link of the queue is repaired, and while the server word names nobody, a PE
between its calls does not hold the lock and has its word as it was at the start. -/
theorem queue_leaves_nothing_behind (c : Config) (actions : List Action) (s : State)
    (wide : c.pes < c.size.room)
    (fits : Along (State.step c) (fun s action => c.fits s action = true) State.initial actions)
    (ran : exec (State.step c) State.initial actions = some s) (pe : Nat) :
    (∀ peLast expected counter, s.pc pe ≠ .repair peLast expected counter)
      ∧ (s.first c c.serverPe = 0 → s.pc pe = .idle → s.depth pe = 0 ∧ s.word pe = 0) := by
  have inv := Inv.exec wide fits ran
  refine ⟨fun _ _ _ here => inv.stands_at here, fun free idle => ?_⟩
  -- An empty queue has no owner.
  obtain ⟨_, depth, level, next⟩ := (inv.stands_at idle).resolve_right fun owns => by
    have leads : s.queue.head? = some pe := owns.1
    rw [inv.queue_eq_nil free] at leads
    cases leads
  -- The server has the last PE of the queue where the others have their count.
  have first : s.first c pe = 0 := by
    by_cases server : pe = c.serverPe
    · exact server ▸ free
    · exact Int.ofNat_eq_zero.mp ((if_neg server).symm.trans level)
  refine ⟨depth, ?_⟩
  rw [s.word_eq (c := c) pe, first, show s.second c pe = 0 from next, ofHalves, Nat.zero_mul]

theorem second_pe_leaves_nothing : ∃ s, exec (State.step (threePes .four)) State.initial
    (.testLock 1 :: List.replicate 5 (.go 1) ++ .clearLock 1 :: List.replicate 7 (.go 1)) = some s
      ∧ s.depth 1 = 0 ∧ s.word 1 = 0 :=
  reaches_of_decide (P := fun s => s.first (threePes .four) 0 = 0 ∧ s.pc 1 = .idle)
    (by decide +kernel) fun s ran ⟨free, idle⟩ => (queue_leaves_nothing_behind (threePes .four) _ s
      (by decide) (by decide +kernel) ran 1).2 free idle

end EduMpi.Shmem.Lock
