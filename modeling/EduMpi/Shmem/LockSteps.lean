import EduMpi.Shmem.LockInvariant

/-! The steps of the distributed lock that leave the queue as it is. -/

namespace EduMpi.Shmem.Lock

open Ints Queue LockSize Option
open Function (update update_eq_self update_of_ne update_self)

variable {c : Config} {strict : Prop} {s t : State} {me : Nat} {one : Int} {next : Then} {pc : Pc}
  {v : View} {count : Int}

section

variable (inv : Inv c strict s)

include inv

/-- A step by which a PE only goes on; the server may change what it keeps for itself. -/
theorem Inv.goTo_prev {prev : Option Nat} (kept : me ≠ c.serverPe → prev = s.prevPe)
    (stands : (s.view c me).Stands c strict me pc)
    (link : ∀ a, Behind s.queue a me → LinkedAt c a me (s.second c a) prev pc) :
    Inv c strict (State.goTo { s with prevPe := prev } me pc) := by
  have here : (State.goTo { s with prevPe := prev } me pc).pc me = pc := update_self ..
  apply inv.own me (t := State.goTo { s with prevPe := prev } me pc) rfl rfl
  · exact fun q different => update_of_ne different ..
  · exact fun q _ => rfl
  · exact kept
  · exact inv.room me
  · exact fun _ => rfl
  · exact inv.counted
  · rw [here]
    exact stands
  · intro a behind
    unfold State.Linked
    rw [here]
    exact link a behind

/-- A step by which a PE only goes on. -/
theorem Inv.goTo (stands : (s.view c me).Stands c strict me pc)
    (link : ∀ a, Behind s.queue a me → LinkedAt c a me (s.second c a) s.prevPe pc) :
    Inv c strict (s.goTo me pc) :=
  inv.goTo_prev (fun _ => rfl) stands link

/-- A step by which a PE only goes on and that nobody stands before. -/
theorem Inv.goTo_free (free : me ∉ s.queue ∨ s.queue.head? = some me)
    (stands : (s.view c me).Stands c strict me pc) : Inv c strict (s.goTo me pc) :=
  inv.goTo stands fun a behind => (inv.not_behind free a behind).elim

/-- A step by which a PE only goes on, knowing as much of the one before it. -/
theorem Inv.goTo_behind {before : Pc} (here : s.pc me = before)
    (stands : (s.view c me).Stands c strict me pc)
    (keeps : ∀ a, LinkedAt c a me (s.second c a) s.prevPe before →
      LinkedAt c a me (s.second c a) s.prevPe pc) :
    Inv c strict (s.goTo me pc) := by
  apply inv.goTo stands
  intro a behind
  -- Whoever stood behind somebody still does; only its place in the code is another.
  have linked := inv.link a me behind
  unfold State.Linked at linked
  rw [here] at linked
  exact keeps a linked

end

/-- The second state is the first with another count of one PE. -/
structure Recounts (c : Config) (s t : State) (me : Nat) (count : Int) : Prop where
  queue : t.queue = s.queue
  pc : t.pc = s.pc
  depth : t.depth = s.depth
  prevPe : t.prevPe = s.prevPe
  last : t.first c c.serverPe = s.first c c.serverPe
  counted : ∀ k, t.counter = some k → 0 < k
  level : t.level c me = count
  levels : ∀ q, q ≠ me → t.level c q = s.level c q
  second : ∀ q, t.second c q = s.second c q

theorem Recounts.refl (inv : Inv c strict s) : Recounts c s s me (s.level c me) :=
  ⟨rfl, rfl, rfl, rfl, rfl, inv.counted, rfl, fun _ _ => rfl, fun _ => rfl⟩

/-- The server counts without anybody seeing it. -/
theorem Recounts.counter {count : Option Int} (server : me = c.serverPe)
    (positive : ∀ k, count = some k → 0 < k) :
    Recounts c s { s with counter := count } me (count.getD 0) where
  queue := rfl
  pc := rfl
  depth := rfl
  prevPe := rfl
  last := rfl
  counted := positive
  level := if_pos server
  levels := fun q different => by
    unfold State.level
    rw [if_neg (server ▸ different), if_neg (server ▸ different)]
    rfl
  second := fun _ => rfl

/-- Another PE counts in the first half of its word, whoever is to be informed next. -/
theorem Recounts.write {count : Nat} (inv : Inv c strict s) (other : me ≠ c.serverPe)
    (fits : count < c.size.room) :
    Recounts c s (s.write me (c.size.packFirstWord count (s.word me))) me count := by
  have room := inv.room me
  have narrow := Nat.lt_of_lt_of_le room c.size.room_le_base
  -- Packing a count leaves the other half of the word as it is.
  have value : c.size.packFirstWord count (s.word me) = c.size.ofHalves count (s.second c me) := by
    rw [s.word_eq (c := c) me]
    exact packFirstWord_eq fits room
  rw [value]
  have first := s.first_write me count (s.second c me) narrow
  have second := s.second_write me count (s.second c me) narrow
  rw [update_eq_self] at second
  constructor
  · rfl
  · rfl
  · rfl
  · rfl
  · rw [first, update_of_ne (Ne.symm other)]
  · exact inv.counted
  · unfold State.level
    rw [if_neg other, first, update_self]
  · intro q different
    unfold State.level
    rw [first, update_of_ne different]
    rfl
  · exact congrFun second

/-- A PE that nobody stands before has written its count and goes on. -/
theorem Inv.settle {depth : Nat} (inv : Inv c strict s) (recounts : Recounts c s t me count)
    (free : me ∉ s.queue ∨ s.queue.head? = some me)
    (stands : View.Stands c strict ⟨depth, me ∈ s.queue, s.queue.head? = some me, count,
      s.second c me⟩ me pc) :
    Inv c strict { t with
      pc := update t.pc me pc
      depth := update t.depth me depth } := by
  apply inv.own me (t := { t with
    pc := update t.pc me pc
    depth := update t.depth me depth }) recounts.queue recounts.last
  · intro q different
    exact (update_of_ne different ..).trans (congrFun recounts.pc q)
  · -- The others see the queue, their own count and the second halves, all unchanged.
    intro q different
    unfold State.view
    congr 1
    · exact (update_of_ne different ..).trans (congrFun recounts.depth q)
    · exact congrArg _ recounts.queue
    · exact congrArg (·.head? = some q) recounts.queue
    · exact recounts.levels q different
    · exact recounts.second q
  · exact fun _ => recounts.prevPe
  · exact (recounts.second me).trans_lt (inv.room me)
  · exact fun _ => recounts.second me
  · exact recounts.counted
  · -- The PE itself sees its new count and depth.
    have seen : State.view c { t with
        pc := update t.pc me pc
        depth := update t.depth me depth } me
        = ⟨depth, me ∈ s.queue, s.queue.head? = some me, count, s.second c me⟩ := by
      unfold State.view
      congr 1
      · exact update_self ..
      · exact congrArg _ recounts.queue
      · exact congrArg (·.head? = some me) recounts.queue
      · exact recounts.level
      · exact recounts.second me
    rw [seen]
    change View.Stands c strict _ me (update t.pc me pc me)
    rw [update_self]
    exact stands
  · -- Nobody is in front of a PE that leads or is outside.
    exact fun a behind => (inv.not_behind free a behind).elim

/-- Going on changes no depth. -/
theorem State.goTo_eq (t : State) (me : Nat) (pc : Pc) : t.goTo me pc = { t with
      pc := update t.pc me pc
      depth := update t.depth me (t.depth me) } := by
  rw [update_eq_self]
  rfl

/-- A PE that nobody stands before has written its count and goes on without returning. -/
theorem Inv.settle_goTo (inv : Inv c strict s) (recounts : Recounts c s t me count)
    (free : me ∉ s.queue ∨ s.queue.head? = some me)
    (stands : View.Stands c strict ⟨s.depth me, me ∈ s.queue, s.queue.head? = some me, count,
      s.second c me⟩ me pc) : Inv c strict (t.goTo me pc) := by
  rw [State.goTo_eq, congrFun recounts.depth me]
  exact inv.settle recounts free stands

/-- A PE that nobody stands before has written its count and its set returns. -/
theorem Inv.settle_acquired (inv : Inv c strict s) (recounts : Recounts c s t me count)
    (leads : s.queue.head? = some me) (positive : 0 < count) (fits : count < c.limit me)
    (covers : View.Covers strict ⟨s.depth me + 1, me ∈ s.queue, s.queue.head? = some me, count,
      s.second c me⟩ count) : Inv c strict (t.acquired me) := by
  unfold State.acquired
  rw [congrFun recounts.depth me]
  exact inv.settle recounts (.inr leads) (.inr ⟨leads, positive, fits, covers⟩)

theorem Config.one_lt_limit (c : Config) (me : Nat) : 1 < c.limit me := by
  unfold Config.limit
  cases c.size <;> split <;> decide

/-- The set of a PE that leads the queue with a count of one returns. -/
theorem Inv.acquired (inv : Inv c strict s) (leads : s.queue.head? = some me)
    (depth : s.depth me = 0) (one : s.level c me = 1) : Inv c strict (s.acquired me) := by
  apply inv.settle_acquired (Recounts.refl inv) leads
  · rw [one]
    exact Int.one_pos
  · rw [one]
    exact c.one_lt_limit me
  · rw [one, depth]
    exact ⟨Int.le_refl _, fun _ => Int.le_refl _⟩

theorem Config.limit_le (c : Config) (me : Nat) : c.limit me ≤ 2 ^ 31 := by
  unfold Config.limit
  cases c.size <;> split <;> decide

theorem View.Packs.free (packs : v.Packs c strict me one next) : ¬ v.queued ∨ v.leads := by
  cases next with
  | nested => exact .inr packs.1.1
  | attempt | queued | retracted => exact .inl packs.1.1
  | granted => exact .inr packs.2.1
  | cleared => exact .inr packs.2.1.1

theorem View.Packs.bounds (packs : v.Packs c strict me one next) : 0 ≤ one ∧ one < c.limit me := by
  have room := c.one_lt_limit me
  -- Each writer has its own reason: a step from a count in range, or a count of one or zero.
  cases next with
  | nested =>
    obtain ⟨⟨_, positive, _⟩, rfl, fits⟩ := packs
    omega
  | attempt | queued | retracted =>
    obtain ⟨_, rfl⟩ := packs
    omega
  | granted =>
    obtain ⟨_, _, positive, fits, _⟩ := packs
    omega
  | cleared =>
    obtain ⟨_, ⟨_, positive, fits, _⟩, rfl⟩ := packs
    unfold State.decremented
    split <;> omega

section Inv

variable (inv : Inv c strict s)

include inv

/-- What follows once a count is written. -/
theorem Inv.proceed (recounts : Recounts c s t me one)
    (packs : (s.view c me).Packs c strict me one next) : Inv c strict (t.proceed me next) := by
  cases next with
  | nested =>
    obtain ⟨⟨leads, positive, _, covers⟩, rfl, fits⟩ := packs
    apply inv.settle_acquired recounts leads _ fits
    · -- One level deeper, one more in the count.
      exact ⟨by have := covers.1; push_cast; exact Int.add_le_add_right this 1,
        fun exactly => by have := covers.2 exactly; push_cast; exact Int.add_le_add_right this 1⟩
    · exact Int.lt_add_one_of_le (Int.le_of_lt positive)
  | attempt tester | queued ticket =>
    obtain ⟨⟨outside, depth, _, next⟩, rfl⟩ := packs
    exact inv.settle_goTo recounts (.inl outside) ⟨outside, depth, rfl, next⟩
  | retracted tester =>
    obtain ⟨⟨outside, depth, _, next⟩, rfl⟩ := packs
    cases tester with
    | set => exact inv.settle_goTo recounts (.inl outside) ⟨outside, depth, rfl, next⟩
    | test => exact inv.settle_goTo recounts (.inl outside) (.inl ⟨outside, depth, rfl, next⟩)
  | granted =>
    obtain ⟨⟨_, depth, _⟩, leads, positive, fits, exactly⟩ := packs
    change s.depth me = 0 at depth
    apply inv.settle_acquired recounts leads positive fits
    rw [depth]
    exact ⟨by push_cast; omega, fun holds => by rw [exactly holds]; rfl⟩
  -- The last level goes to the release branch, every other one is done.
  | cleared count =>
    obtain ⟨least, fits⟩ := packs.bounds
    obtain ⟨rfl, ⟨leads, _, _, covers⟩, left⟩ := packs
    rw [← left] at covers
    change Inv c strict (t.goTo me (if count = 0 then .clearNext else .idle))
    by_cases released : count = 0
    · have depth : s.depth me = 0 := by
        have := covers.1
        change (s.depth me : Int) ≤ count at this
        omega
      rw [if_pos released]
      exact inv.settle_goTo recounts (.inr leads) ⟨depth, released, .inl leads⟩
    · rw [if_neg released]
      exact inv.settle_goTo recounts (.inr leads)
        (.inr ⟨leads, by change 0 < count; omega, fits, covers⟩)

/-- What the invariant does not speak of may change. -/
theorem Inv.untouched (lockTurn lockLastTicket lockInform : Int) :
    Inv c strict { s with
      lockTurn := lockTurn, lockLastTicket := lockLastTicket, lockInform := lockInform } :=
  { inv with }

/-- A count that fits is read as it is stored. -/
theorem Inv.lockGetCount_eq (fits : s.level c me < c.limit me) :
    s.lockGetCount c me = s.level c me := by
  unfold State.lockGetCount
  unfold State.level Config.limit at *
  -- The count is kept in two ways, but read as one number as long as it is in range.
  split at fits
  next server => rw [if_pos server, if_pos server]
  next other =>
    rw [if_neg other, if_neg other, s.word_eq (c := c) me,
      lockExtractCounter_eq (by omega) (inv.room me)]

/-- Another PE than the server reads its count from its word. -/
theorem Inv.lockExtractCounter_eq (other : me ≠ c.serverPe) (fits : s.level c me < c.limit me) :
    c.size.lockExtractCounter (s.word me) = s.level c me := by
  have read := inv.lockGetCount_eq fits
  unfold State.lockGetCount at read
  rwa [if_neg other] at read

/-- A PE that looks at its own count learns whether it has the lock. -/
theorem Inv.goTo_mine (either : (s.view c me).Out 0 ∨ (s.view c me).Owns c strict me)
    (held : 0 < s.lockGetCount c me → pc = .increment .nested)
    (free : ¬ 0 < s.lockGetCount c me → (s.view c me).Out 0 →
      (s.view c me).Stands c strict me pc) : Inv c strict (s.goTo me pc) := by
  -- A count of zero sends the PE on to the queue, any other one means it holds the lock already.
  rcases either with out | owns
  · have level : s.level c me = 0 := out.2.2.1
    have read : s.lockGetCount c me = s.level c me :=
      inv.lockGetCount_eq (by have := c.one_lt_limit me; omega)
    exact inv.goTo_free (.inl out.1) (free (by omega) out)
  · cases held (by rw [inv.lockGetCount_eq owns.2.2.1]; exact owns.2.1)
    exact inv.goTo_free (.inr owns.1) owns

end Inv

/-- A count that has room for one more set is written with it. -/
theorem View.Stands.packs (stands : v.Stands c strict me (.increment next))
    (fits : v.level + 1 < c.limit me) : v.Packs c strict me (v.level + 1) next := by
  cases next with
  | nested => exact ⟨stands, rfl, fits⟩
  | attempt | queued => exact ⟨stands, by rw [stands.2.2.1]; rfl⟩
  | retracted | granted | cleared => exact stands.elim

theorem View.Stands.level_nonneg (stands : v.Stands c strict me (.increment next)) :
    0 ≤ v.level := by
  cases next with
  | nested => exact Int.le_of_lt stands.2.1
  | attempt | queued => exact Int.le_of_eq stands.2.2.1.symm
  | retracted | granted | cleared => exact stands.elim

/-- A clear of a lock that is not its own changes nothing. -/
theorem Inv.proceed_unset (inv : Inv c strict s) (out : (s.view c me).Out 0) :
    Inv c strict (s.proceed me (.cleared (-1))) :=
  inv.goTo_free (.inl out.1) (.inl out)

section

variable {v : View} {decrementer : Decrementer}
  (stands : v.Stands c strict me (.decrement decrementer))

include stands

/-- A count above zero is written one lower, or as zero. -/
theorem View.Stands.packs_decremented (positive : 0 < v.level) :
    v.Packs c strict me (State.decremented c v.level)
      (State.afterDecrement (State.decremented c v.level) decrementer) := by
  cases decrementer with
  | test tester =>
    obtain ⟨outside, depth, level, next⟩ := stands
    refine ⟨⟨outside, depth, level, next⟩, ?_⟩
    unfold State.decremented
    split <;> omega
  | clear =>
    -- Clearing a lock that is not held finds no positive count.
    rcases stands with ⟨_, _, level, _⟩ | clears
    · omega
    · exact ⟨rfl, clears, rfl⟩

/-- A count of zero is decremented by a clear only. -/
theorem View.Stands.out_of_zero (zero : ¬ 0 < v.level) : decrementer = .clear ∧ v.Out 0 := by
  cases decrementer with
  | test tester =>
    have level := stands.2.2.1
    omega
  | clear =>
    rcases stands with out | ⟨_, positive, _⟩
    · exact ⟨rfl, out⟩
    · exact absurd positive zero

theorem View.Stands.level_lt : v.level < c.limit me := by
  have room := c.one_lt_limit me
  cases decrementer with
  | test tester =>
    have level := stands.2.2.1
    omega
  | clear =>
    rcases stands with ⟨_, _, level, _⟩ | ⟨_, _, fits, _⟩ <;> omega

end

/-- The word of a PE that waits has a count of one, and its inform bit once it leads the queue. -/
theorem View.Waits.first (waits : (s.view c me).Waits c me) (other : me ≠ c.serverPe) :
    s.first c me = if s.queue.head? = some me then 1 + c.size.base / 2 else 1 := by
  obtain ⟨_, _, follows, leads⟩ := waits
  have level : (s.view c me).level = s.first c me := if_neg other
  -- The inform bit is set exactly when the one in front has left.
  split
  next first =>
    have := leads first
    rw [if_neg other] at this
    omega
  next behind =>
    have := follows behind
    omega

/-- A PE that waits sees its inform bit exactly when it leads the queue. -/
theorem Inv.informed_iff (inv : Inv c strict s) (other : me ≠ c.serverPe)
    (waits : (s.view c me).Waits c me) :
    c.size.informed (s.word me) = true ↔ s.queue.head? = some me := by
  have value := waits.first other
  have narrow := c.size.room_le_base
  have room := inv.room me
  -- The bit is the top bit of the first half, above a count of one.
  have half : 1 < c.size.base / 2 ∧ 1 + c.size.base / 2 < c.size.base := by
    cases c.size <;> decide
  rw [s.word_eq (c := c) me, informed_eq (by split at value <;> omega) (by omega),
    decide_eq_true_eq]
  split at value
  next first => exact iff_of_true (by omega) first
  next behind => exact iff_of_false (by omega) behind

/-- The count a PE keeps while it waits; four bytes show it with the inform bit. -/
theorem Inv.original_counter (inv : Inv c strict s) (other : me ≠ c.serverPe)
    (waits : (s.view c me).Waits c me)
    (clear : strict → c.size = .eight ∨ c.size.informed (s.word me) = false) :
    0 < c.size.lockExtractCounter (s.word me)
      ∧ c.size.lockExtractCounter (s.word me) < c.limit me
      ∧ (strict → c.size.lockExtractCounter (s.word me) = 1) := by
  have informed := inv.informed_iff other waits
  have limit : c.limit me = c.size.room := if_neg other
  have room := inv.room me
  by_cases first : s.queue.head? = some me
  · have word := s.word_eq (c := c) me
    rw [waits.first other, if_pos first] at word
    rw [informed.mpr first] at clear
    rw [limit, word]
    -- In four bytes the bit spoils the count that is read; in eight bytes it is masked.
    cases size : c.size with
    | four =>
      rw [size] at room clear
      rw [lockExtractCounter_four (by decide) room]
      exact ⟨by decide, by decide, fun exactly => by rcases clear exactly with wide | bit <;> contradiction⟩
    | eight =>
      rw [size] at room
      rw [lockExtractCounter_eight (by decide) room]
      exact ⟨by decide, by decide, fun _ => rfl⟩
  · -- Not informed yet: the word holds the count alone.
    have value : s.level c me = 1 := waits.2.2.1 first
    have read := inv.lockExtractCounter_eq other (value ▸ c.one_lt_limit me)
    rw [read, value]
    exact ⟨by decide, c.one_lt_limit me, fun _ => rfl⟩

/-- A PE that hands over either leads the queue or has been overtaken. -/
theorem View.Releases.free (releases : v.Releases c) : ¬ v.queued ∨ v.leads :=
  releases.2.2.elim .inr fun overtaken => .inl overtaken.1

/-- The first half of every word reads as a non-negative `int` but for the inform bit. -/
theorem Inv.last_lt (inv : Inv c strict s) (wide : c.pes < c.size.room) :
    s.first c c.serverPe < c.size.room := by
  rw [inv.last]
  -- The last PE is one of the numbered ones.
  cases last : s.queue.getLast? with
  | none => exact Nat.lt_of_le_of_lt (Nat.zero_le _) wide
  | some pe =>
    have := inv.members pe (List.mem_of_getLast? last)
    change pe + 1 < _
    omega

section Go

variable (inv : Inv c strict s) (taken : s.go c me = some t)

include inv taken

theorem Inv.go_setMine (here : s.pc me = .setMine) : Inv c strict t := by
  simp only [State.go, here, some.injEq] at taken
  subst taken
  refine inv.goTo_mine (inv.stands_at here) (fun mine => if_pos mine) fun other out => ?_
  rw [if_neg other]
  exact out

theorem Inv.go_testMine {tester : Tester} (here : s.pc me = .testMine tester) : Inv c strict t := by
  simp only [State.go, here, some.injEq] at taken
  subst taken
  have stands := inv.stands_at here
  refine inv.goTo_mine ?_ (fun mine => by rw [if_pos mine]) fun other out => ?_
  · cases tester with
    | set => exact .inl stands
    | test => exact stands
  · rw [if_neg other]
    exact out

theorem Inv.go_increment (here : s.pc me = .increment next)
    (fits : s.level c me + 1 < c.limit me) : Inv c strict t := by
  simp only [State.go, here, some.injEq] at taken
  subst taken
  have stands := inv.stands_at here
  have packs := stands.packs fits
  have least : 0 ≤ s.level c me := stands.level_nonneg
  have int : int32 (s.level c me + 1) = s.level c me + 1 :=
    int32_of_mem (by omega) (by have := c.limit_le me; omega)
  unfold State.incrementCounter
  by_cases server : me = c.serverPe
  · -- The server counts in its own variable; the first count creates it.
    rw [if_pos server]
    have value : State.insertCounter s.counter = s.level c me + 1 := by
      unfold State.level at int ⊢
      rw [if_pos server] at int ⊢
      cases kept : s.counter with
      | none => rfl
      | some count =>
        rw [kept] at int
        exact int
    rw [value]
    have recounts : Recounts c s { s with counter := some (s.level c me + 1) } me
        (s.level c me + 1) := by
      apply Recounts.counter server
      intro k same
      rw [some.injEq] at same
      omega
    exact inv.proceed recounts packs
  · -- Everybody else has to exchange a word, which comes later.
    rw [if_neg server, inv.lockExtractCounter_eq server (by omega), int]
    exact inv.goTo_free packs.free ⟨server, packs⟩

theorem Inv.go_packSwap {read : Nat} (here : s.pc me = .packSwap one read next) :
    Inv c strict t := by
  simp only [State.go, here, some.injEq] at taken
  subst taken
  have stands := inv.stands_at here
  obtain ⟨other, packs⟩ := stands
  unfold State.cswap
  by_cases same : s.word me = read
  · -- The exchange succeeds on the word as it is now.
    rw [if_pos same]
    subst same
    obtain ⟨least, fits⟩ := packs.bounds
    obtain ⟨count, rfl⟩ := Int.eq_ofNat_of_zero_le least
    unfold Config.limit at fits
    exact inv.proceed (Recounts.write inv other (by omega)) packs
  · -- Somebody else wrote the word in between: the loop reads again.
    rw [if_neg same]
    exact inv.goTo_free packs.free ⟨other, packs⟩

theorem Inv.go_decrement {decrementer : Decrementer} (here : s.pc me = .decrement decrementer) :
    Inv c strict t := by
  simp only [State.go, here, some.injEq] at taken
  subst taken
  have stands := inv.stands_at here
  unfold State.decrementCounter
  by_cases server : me = c.serverPe
  · have level : s.level c me = s.counter.getD 0 := if_pos server
    rw [if_pos server]
    -- The server removes the variable with the last count.
    cases kept : s.counter with
    | none =>
      rw [kept] at level
      obtain ⟨rfl, out⟩ := stands.out_of_zero (by change ¬ 0 < s.level c me; rw [level]; decide)
      exact inv.proceed_unset out
    | some count =>
      rw [kept] at level
      have packs := stands.packs_decremented (by
        change 0 < s.level c me
        rw [level]
        exact inv.counted count kept)
      have bounds := packs.bounds
      change View.Packs c strict _ me (State.decremented c (s.level c me)) (State.afterDecrement
        (State.decremented c (s.level c me)) decrementer) at packs
      change 0 ≤ State.decremented c (s.level c me) ∧ _ at bounds
      rw [level, getD_some] at packs bounds
      dsimp only
      by_cases gone : State.decremented c count ≤ 0
      · -- The counter is removed.
        have zero : State.decremented c count = 0 := by omega
        rw [if_pos gone]
        rw [zero] at packs
        exact inv.proceed (Recounts.counter server fun _ kept => by cases kept) packs
      · rw [if_neg gone]
        refine inv.proceed (Recounts.counter server ?_) packs
        intro k same
        rw [some.injEq] at same
        omega
  · -- For everybody else the count is read from the word.
    have read := inv.lockExtractCounter_eq server stands.level_lt
    rw [if_neg server]
    rw [read]
    by_cases positive : 0 < s.level c me
    · rw [if_pos positive]
      have packs := stands.packs_decremented positive
      exact inv.goTo_free packs.free ⟨server, packs⟩
    · rw [if_neg positive]
      obtain ⟨rfl, out⟩ := stands.out_of_zero positive
      exact inv.proceed_unset out

theorem Inv.go_turnInc {peLast : Nat} (here : s.pc me = .turnInc peLast) : Inv c strict t := by
  simp only [State.go, here, some.injEq] at taken
  subst taken
  have stands := inv.stands_at here
  have moved := inv.untouched (int32 (s.lockTurn + 1)) s.lockLastTicket s.lockInform
  rcases stands with ⟨own, leads, depth, level⟩ | ⟨other, queues⟩
  · -- The queue was empty, so the set returns.
    rw [if_pos own]
    exact moved.acquired leads depth level
  · rw [if_neg other]
    exact moved.goTo_behind here queues fun a linked => linked

theorem Inv.go_informFirst (here : s.pc me = .informFirst)
    (clear : me ≠ c.serverPe → strict → c.size = .eight ∨ c.size.informed (s.word me) = false) :
    Inv c strict t := by
  simp only [State.go, here] at taken
  have waits := inv.stands_at here
  by_cases server : me = c.serverPe
  · -- The server goes on with the predecessor it has kept.
    rw [if_pos server] at taken
    cases kept : s.prevPe with
    | none => simp only [kept, reduceCtorEq] at taken
    | some prevPe =>
      simp only [kept, some.injEq] at taken
      subst taken
      refine inv.goTo_prev (fun other => absurd server other) ⟨server, waits⟩ fun a behind => ?_
      have linked := inv.link a me behind
      unfold State.Linked at linked
      rw [here] at linked
      have same := linked.2 server
      rw [kept, some.injEq] at same
      exact ⟨same, linked.1⟩
  · rw [if_neg server, some.injEq] at taken
    subst taken
    -- The bit in the word says whether the PE leads already.
    have informed := inv.informed_iff server waits
    have original := inv.original_counter server waits (clear server)
    by_cases bit : c.size.informed (s.word me) = true
    · rw [if_pos bit]
      have leads := informed.mp bit
      exact inv.goTo_free (.inr leads) ⟨server, waits, leads, original⟩
    · rw [if_neg bit]
      exact inv.goTo_behind here ⟨server, waits, original⟩ fun a linked => linked.1

theorem Inv.go_informRead {original : Int} (here : s.pc me = .informRead original) :
    Inv c strict t := by
  simp only [State.go, here, some.injEq] at taken
  subst taken
  have stands := inv.stands_at here
  obtain ⟨other, waits, original⟩ := stands
  by_cases bit : c.size.informed (s.word me) = true
  · rw [if_pos bit]
    have leads := (inv.informed_iff other waits).mp bit
    exact inv.goTo_free (.inr leads) ⟨other, waits, leads, original⟩
  · rw [if_neg bit]
    exact inv.goTo_behind here ⟨other, waits, original⟩ fun a linked => linked

theorem Inv.go_clearNext (here : s.pc me = .clearNext) : Inv c strict t := by
  simp only [State.go, here, some.injEq] at taken
  subst taken
  have releases := inv.stands_at here
  have read : c.size.lockExtractPeNext (s.word me) = s.second c me - 1 := by
    rw [s.word_eq (c := c) me, lockExtractPeNext_eq (inv.room me)]
  rw [read]
  -- The word names the next PE, counted from one.
  cases next : s.second c me with
  | zero => exact inv.goTo_free releases.free releases
  | succ peNext =>
    have named : ((peNext + 1 : Nat) : Int) - 1 = Int.ofNat peNext := by
      change _ = (peNext : Int)
      omega
    rw [named]
    dsimp only
    split
    next server => exact inv.goTo_free releases.free ⟨releases, by rw [server]; exact next⟩
    next other =>
      -- Only the server takes the lock over on its own.
      have leads : s.queue.head? = some me := by
        rcases releases.2.2 with leads | ⟨_, server⟩
        · exact leads
        · have : s.second c me = c.serverPe + 1 := server
          omega
      exact inv.goTo_free (.inr leads) ⟨Ne.symm other, leads, releases.1, releases.2.1, next⟩

theorem Inv.go_resetSwap {read : Nat} (wide : c.pes < c.size.room)
    (here : s.pc me = .resetSwap read) : Inv c strict t := by
  simp only [State.go, here, some.injEq] at taken
  subst taken
  have stands := inv.stands_at here
  -- The PE has left the queue, so that nobody looks at its second half.
  obtain ⟨outside, depth, level⟩ := stands
  unfold State.cswap
  by_cases same : s.word me = read
  · rw [if_pos same]
    subst same
    have room := inv.room me
    have small : s.first c me < c.size.room := by
      by_cases server : me = c.serverPe
      · exact server ▸ inv.last_lt wide
      · have : (s.view c me).level = s.first c me := if_neg server
        omega
    have value : c.size.packSecondWord 0 (s.word me) = c.size.ofHalves (s.first c me) 0 := by
      rw [s.word_eq (c := c) me]
      exact packSecondWord_zero small room
    rw [value]
    -- Only the second half of its own word changes.
    have firsts := s.first_write (c := c) me (s.first c me) 0 base_pos
    have seconds := s.second_write (c := c) me (s.first c me) 0 base_pos
    rw [update_eq_self] at firsts
    have cleared := (congrFun seconds me).trans (update_self ..)
    have levels : ∀ q, (s.write me (c.size.ofHalves (s.first c me) 0)).level c q = s.level c q := by
      intro q
      unfold State.level
      rw [firsts]
      rfl
    have now : ((s.write me (c.size.ofHalves (s.first c me) 0)).goTo me .idle).pc me = .idle :=
      update_self ..
    apply inv.own me (t := (s.write me (c.size.ofHalves (s.first c me) 0)).goTo me .idle)
      rfl (congrFun firsts _)
    · exact fun q different => update_of_ne different ..
    · intro q different
      unfold State.view
      congr 1
      · exact levels q
      · exact (congrFun seconds q).trans (update_of_ne different ..)
    · exact fun _ => rfl
    · exact cleared.trans_lt (Nat.lt_of_le_of_lt (Nat.zero_le _) wide)
    · exact fun member => absurd member outside
    · exact inv.counted
    · rw [now]
      exact .inl ⟨outside, depth, (levels me).trans level, cleared⟩
    · exact fun a behind => absurd behind.mem_right outside
  · rw [if_neg same]
    exact inv.goTo_free (.inl outside) ⟨outside, depth, level⟩

end Go

end EduMpi.Shmem.Lock
