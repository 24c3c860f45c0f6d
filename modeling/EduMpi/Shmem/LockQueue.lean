import EduMpi.Shmem.LockSteps

/-! The steps of the distributed lock that change the queue or what its PEs know of each other. -/

namespace EduMpi.Shmem.Lock

open Ints Queue LockSize List
open Function (update update_eq_self update_of_ne update_self)

variable {c : Config} {strict : Prop} {s t : State} {me : Nat} {pc : Pc}

/-- A count that is read as positive; the inform bit does not hide it. -/
def View.Counted (c : Config) (v : View) (me : Nat) : Prop :=
  (0 < v.level ∧ v.level < c.limit me)
    ∨ (me ≠ c.serverPe ∧ v.level = (1 + c.size.base / 2 : Nat))

/-- A PE at the release branch, with the one it has found to inform. -/
def View.HandsOver (c : Config) (v : View) : Pc → Prop
  | .clearNext | .tryServer => True
  | .informServer _ => v.next = c.serverPe + 1
  | .informGet peNext | .informSwap peNext _ => peNext ≠ c.serverPe ∧ v.next = peNext + 1
  | _ => False

section Counted

variable {v : View} {one : Int} {next : Then}

/-- Outside of the lock the count is zero. -/
theorem View.Out.zero (out : v.Out 0) :
    v.Counted c me ∨ (v.level = 0 ∧ (v.queued → v.leads ∧ v.HandsOver c pc)) :=
  .inr ⟨out.2.2.1, fun queued => absurd queued out.1⟩

theorem View.counted_one (level : v.level = 1) : v.Counted c me :=
  .inl ⟨by omega, level ▸ c.one_lt_limit me⟩

theorem View.Owns.counted (owns : v.Owns c strict me) : v.Counted c me :=
  .inl ⟨owns.2.1, owns.2.2.1⟩

theorem View.Clears.counted (clears : v.Clears c strict me) : v.Counted c me :=
  .inl ⟨clears.2.1, clears.2.2.1⟩

/-- A PE that waits has counted itself; the inform bit is added to that count. -/
theorem View.Waits.counted (waits : v.Waits c me) : v.Counted c me := by
  obtain ⟨_, _, follows, leads⟩ := waits
  by_cases first : v.leads
  · -- Being informed sets a bit in the word; the server looks at a variable instead.
    by_cases server : me = c.serverPe
    · exact counted_one (by rw [leads first, if_pos server]; rfl)
    · exact .inr ⟨server, by rw [leads first, if_neg server]⟩
  · exact counted_one (follows first)

/-- A PE in the release branch has count zero, and leads if it is still queued. -/
theorem View.Releases.handsOver (releases : v.Releases c)
    (hands : v.HandsOver c pc) :
    v.Counted c me ∨ (v.level = 0 ∧ (v.queued → v.leads ∧ v.HandsOver c pc)) := by
  refine .inr ⟨releases.2.1, fun queued => ?_⟩
  rcases releases.2.2 with leads | overtaken
  · exact ⟨leads, hands⟩
  · exact absurd queued overtaken.1

/-- A count that is being written does not count yet. -/
theorem View.Packs.counted (packs : v.Packs c strict me one next) :
    v.Counted c me ∨ (v.level = 0 ∧ (v.queued → v.leads ∧ v.HandsOver c pc)) := by
  cases next with
  | nested => exact .inl packs.1.counted
  | attempt => exact packs.1.zero
  | queued => exact packs.1.zero
  | retracted => exact .inl (counted_one packs.1.2.2.1)
  | granted => exact .inl packs.1.counted
  | cleared => exact .inl packs.2.1.counted

/-- A PE of the queue has a positive count until it is about to hand the lock over. -/
theorem View.Stands.counted (stands : v.Stands c strict me pc) :
    v.Counted c me ∨ (v.level = 0 ∧ (v.queued → v.leads ∧ v.HandsOver c pc)) := by
  -- One case for each place; where nothing is counted, the PE is outside or about to release.
  cases pc with
  | idle | setMine => exact stands.elim View.Out.zero fun owns => .inl owns.counted
  | testMine tester =>
    cases tester with
    | set => exact View.Out.zero stands
    | test => exact stands.elim View.Out.zero fun owns => .inl owns.counted
  | increment next =>
    cases next with
    | nested => exact .inl (View.Owns.counted stands)
    | attempt | queued => exact View.Out.zero stands
    | retracted | granted | cleared => exact stands.elim
  | packRead | packSwap => exact stands.2.counted
  | decrement decrementer =>
    cases decrementer with
    | test => exact .inl (counted_one stands.2.2.1)
    | clear => exact stands.elim View.Out.zero fun clears => .inl clears.counted
  | testSwap | waitTurn | serverGet | serverSwap => exact .inl (counted_one stands.2.2.1)
  | getTicket => exact View.Out.zero stands
  | serverPoll | turnInc =>
    rcases stands with ⟨_, _, _, level⟩ | ⟨_, _, _, _, level⟩
    · exact .inl (counted_one level)
    · exact .inl (counted_one level)
  | subscribe => exact .inl (counted_one stands.2.2.2)
  -- The repair is never reached.
  | repair => exact stands.elim
  | informFirst => exact .inl (View.Waits.counted stands)
  | informWait | informRead => exact .inl stands.2.1.counted
  | prevGet | prevWait => exact .inl stands.2.counted
  | clearNext | tryServer => exact View.Releases.handsOver stands trivial
  | informServer => exact stands.1.handsOver stands.2
  | informGet | informSwap =>
    obtain ⟨other, leads, _, level, next⟩ := stands
    exact .inr ⟨level, fun _ => ⟨leads, other, next⟩⟩
  | resetRead | resetSwap => exact .inr ⟨stands.2.2, fun queued => absurd queued stands.1⟩

end Counted

section Inv

variable (inv : Inv c strict s)

include inv

/-- The first half of every word is in its range. -/
theorem Inv.first_lt (wide : c.pes < c.size.room) (pe : Nat) : s.first c pe < c.size.base := by
  have narrow := c.size.room_le_base
  by_cases server : pe = c.serverPe
  · exact server ▸ Nat.lt_of_lt_of_le (inv.last_lt wide) narrow
  · have level : (s.view c pe).level = s.first c pe := if_neg server
    have limit : c.limit pe = c.size.room := if_neg server
    have half : 1 + c.size.base / 2 < c.size.base := by cases c.size <;> decide
    -- Even with the inform bit a count stays below the base.
    rcases (inv.stands pe).counted with (⟨_, fits⟩ | ⟨_, bit⟩) | ⟨zero, _⟩ <;> omega

/-- Another PE than the server with such a count reads it as positive. -/
theorem Inv.extracted_pos (other : me ≠ c.serverPe)
    (counted : (s.view c me).Counted c me) : 0 < c.size.lockExtractCounter (s.word me) := by
  -- A count in range is read as it is; a set inform bit leaves the one below it.
  rcases counted with ⟨positive, fits⟩ | ⟨_, bit⟩
  · rw [inv.lockExtractCounter_eq other fits]
    exact positive
  have level : (s.view c me).level = s.first c me := if_neg other
  have value : s.first c me = 1 + c.size.base / 2 := by omega
  have room := inv.room me
  rw [s.word_eq (c := c) me, value]
  cases size : c.size with
  | four =>
    rw [size] at room
    rw [lockExtractCounter_four (by decide) room]
    decide
  | eight =>
    rw [size] at room
    rw [lockExtractCounter_eight (by decide) room]
    decide

/-- A server word without a last PE belongs to an empty queue. -/
theorem Inv.queue_eq_nil (free : s.first c c.serverPe = 0) : s.queue = [] := by
  have last := inv.last
  rw [free] at last
  cases ends : s.queue.getLast? with
  | none => exact List.getLast?_eq_none_iff.mp ends
  | some pe =>
    rw [ends] at last
    exact absurd last.symm (Nat.succ_ne_zero pe)

/-- The PE that the server word names is the last one of the queue. -/
theorem Inv.getLast?_eq {pe : Nat} (names : s.first c c.serverPe = pe + 1) :
    s.queue.getLast? = some pe := by
  have last := inv.last
  rw [names] at last
  cases ends : s.queue.getLast? with
  | none =>
    rw [ends] at last
    exact absurd last (Nat.succ_ne_zero pe)
  | some other =>
    rw [ends] at last
    exact congrArg some (Nat.succ.inj last).symm

/-- The state after a PE has put itself at the end of the queue. -/
def State.joined (c : Config) (s : State) (me : Nat) (pc : Pc) (depth : Nat) : State :=
  { (s.write c.serverPe (c.size.ofHalves (me + 1) (s.second c c.serverPe))).enqueue me with
    pc := update s.pc me pc
    depth := update s.depth me depth }

/-- A PE that had nothing to do with the lock puts itself at the end of the queue. -/
theorem Inv.join {depth : Nat} (small : me < c.pes) (out : (s.view c me).Out 1)
    (stands : View.Stands c strict ⟨depth, True, s.queue = [], 1, 0⟩ me pc)
    (link : ∀ a, s.queue.getLast? = some a → LinkedAt c a me 0 s.prevPe pc) :
    Inv c strict (s.joined c me pc depth) := by
  obtain ⟨outside, _, level, next⟩ := out
  have narrow := Nat.lt_of_lt_of_le (inv.room c.serverPe) c.size.room_le_base
  -- Only the server's first half changes: the last of the queue is now this PE.
  have firsts : (s.joined c me pc depth).first c
      = update (s.first c) c.serverPe (me + 1) := s.first_write _ _ _ narrow
  have seconds : (s.joined c me pc depth).second c = s.second c :=
    (s.second_write c.serverPe (me + 1) (s.second c c.serverPe) narrow).trans (update_eq_self ..)
  have levels : (s.joined c me pc depth).level c = s.level c :=
    State.level_congr rfl fun q other => by rw [firsts, update_of_ne other]
  have pcs (q : Nat) (different : q ≠ me) : (s.joined c me pc depth).pc q = s.pc q :=
    update_of_ne different ..
  have here : (s.joined c me pc depth).pc me = pc := update_self ..
  -- The PE leads exactly if it found the queue empty.
  have heads (q : Nat) : (s.queue ++ [me]).head? = some q
      ↔ s.queue.head? = some q ∨ (s.queue = [] ∧ me = q) := by
    cases s.queue <;> simp
  constructor
  · exact nodup_append.mpr ⟨inv.nodup, nodup_singleton me, fun a member b single => by
      rw [mem_singleton] at single
      exact fun same => outside (single ▸ same ▸ member)⟩
  · intro pe member
    rcases mem_append.mp member with before | single
    · exact inv.members pe before
    · exact mem_singleton.mp single ▸ small
  · change _ = ((s.queue ++ [me]).getLast?.map (· + 1)).getD 0
    rw [firsts, update_self, List.getLast?_concat]
    rfl
  · intro pe last
    change (s.queue ++ [me]).getLast? = some pe at last
    rw [List.getLast?_concat, Option.some.injEq] at last
    rw [seconds, ← last]
    exact next
  · intro pe
    rw [seconds]
    exact inv.room pe
  · exact inv.counted
  · intro q
    by_cases same : q = me
    · subst same
      -- The PE itself: outside before, so that it was neither queued nor leading.
      have view : (s.joined c q pc depth).view c q = ⟨depth, True, s.queue = [], 1, 0⟩ := by
        unfold State.view
        congr 1
        · exact update_self ..
        · exact eq_true (mem_append_right _ (mem_singleton_self q))
        · refine propext ((heads q).trans ⟨?_, fun empty => .inr ⟨empty, rfl⟩⟩)
          rintro (leads | ⟨empty, _⟩)
          · exact absurd (mem_of_mem_head? leads) outside
          · exact empty
        · exact (congrFun levels q).trans level
        · exact (congrFun seconds q).trans next
      rw [view, here]
      exact stands
    · -- Everybody else sees nothing of it.
      have view : (s.joined c me pc depth).view c q = s.view c q := by
        unfold State.view
        congr 1
        · exact update_of_ne same ..
        · refine propext (mem_append.trans ⟨?_, .inl⟩)
          rintro (before | single)
          · exact before
          · exact absurd (mem_singleton.mp single) same
        · refine propext ((heads q).trans ⟨?_, .inl⟩)
          rintro (leads | ⟨_, own⟩)
          · exact leads
          · exact absurd own.symm same
        · exact congrFun levels q
        · exact congrFun seconds q
      rw [view, pcs q same]
      exact inv.stands q
  · intro a b behind
    unfold State.Linked
    rw [seconds]
    -- A new pair is the old last one and this PE.
    rcases behind_concat.mp behind with before | ⟨last, rfl⟩
    · have different : b ≠ me := fun same => outside (same ▸ before.mem_right)
      rw [pcs b different]
      exact inv.link a b before
    · rw [here, inv.ends a last]
      exact link a last

/-- The compare and swap of a test. -/
theorem Inv.go_testSwap {tester : Tester} (wide : c.pes < c.size.room)
    (small : me < c.pes) (here : s.pc me = .testSwap tester)
    (taken : s.go c me = some t) : Inv c strict t := by
  simp only [State.go, here, Option.some.injEq] at taken
  subst taken
  have out := inv.stands_at here
  unfold State.cswap
  split
  next free =>
    -- The server word is zero, so the queue is empty and the test takes the lock.
    have narrow := c.size.room_le_base
    have first : s.first c c.serverPe = 0 := by
      unfold State.first
      rw [free, Nat.zero_div]
    have second : s.second c c.serverPe = 0 := by
      unfold State.second
      rw [free, Nat.zero_mod]
    have empty := inv.queue_eq_nil first
    have depth : s.depth me = 0 := out.2.1
    have value : c.size.lockPackPeNextPeLast (-1) me
        = c.size.ofHalves (me + 1) (s.second c c.serverPe) := by
      rw [second]
      exact lockPackPeNextPeLast_eq (by omega)
    rw [value]
    change Inv c strict (s.joined c me .idle (s.depth me + 1))
    refine inv.join small out (.inr ⟨empty, ?_, ?_, ?_⟩) ?_
    · exact Int.one_pos
    · exact c.one_lt_limit me
    · rw [depth]
      exact ⟨Int.le_refl _, fun _ => Int.le_refl _⟩
    · rw [empty]
      intro a last
      cases last
  -- The swap failed: somebody is in the queue, and nothing was written.
  next => exact inv.goTo_free (.inl out.1) out

end Inv

/-- Joining the queue on the way to the ticket changes no depth. -/
theorem State.joined_eq (s : State) (me : Nat) (pc : Pc) :
    ((s.write c.serverPe (c.size.ofHalves (me + 1) (s.second c c.serverPe))).enqueue me).goTo me pc
      = s.joined c me pc (s.depth me) := by
  unfold State.joined
  rw [update_eq_self]
  rfl

/-- The compare and swap that puts a PE behind the last one. -/
theorem Inv.go_serverSwap {read : Nat} (inv : Inv c strict s) (wide : c.pes < c.size.room)
    (small : me < c.pes) (here : s.pc me = .serverSwap read)
    (taken : s.go c me = some t) : Inv c strict t := by
  have out := inv.stands_at here
  have depth : s.depth me = 0 := out.2.1
  simp only [State.go, here, Option.bind_eq_some_iff, Option.map_eq_some_iff] at taken
  obtain ⟨value, packed, peLast, named, rfl⟩ := taken
  unfold State.cswap
  split
  -- The server word is still the one that was read, so what was extracted from it holds now.
  next same =>
    subst same
    rw [s.word_eq (c := c) c.serverPe] at packed named
    rw [lockPackPeLast_eq (by omega) (inv.room _), Option.some.injEq] at packed
    rw [lockExtractPeLast_eq (inv.last_lt wide) (inv.room _)] at named
    subst packed
    dsimp only
    rw [s.joined_eq]
    cases first : s.first c c.serverPe with
    | zero =>
      -- It is the first of an empty queue.
      rw [first] at named
      obtain rfl : me = peLast := Option.some.inj named
      have empty := inv.queue_eq_nil first
      refine inv.join small out (.inl ⟨rfl, empty, depth, rfl⟩) ?_
      rw [empty]
      intro a last
      cases last
    -- Another PE was the last one; this one stands behind it without its knowledge.
    | succ last =>
      have before : ((last + 1 : Nat) : Int) - 1 = Int.ofNat last := by
        change _ = (last : Int)
        omega
      rw [first, before] at named
      obtain rfl : last = peLast := Option.some.inj named
      have ends := inv.getLast?_eq first
      have different : last ≠ me := fun same => out.1 (same ▸ mem_of_getLast? ends)
      have occupied : s.queue ≠ [] := fun empty => by
        rw [empty] at ends
        cases ends
      refine inv.join small out (.inr ⟨different, trivial, occupied, depth, rfl⟩) ?_
      intro a isLast
      rw [ends, Option.some.injEq] at isLast
      exact ⟨isLast, rfl⟩
  -- The word has changed since it was read: the loop reads again.
  next => exact inv.goTo_free (.inl out.1) out

/-- Whoever is queued and does not lead stands behind another, and knows what that one knows. -/
theorem Inv.exists_linked (inv : Inv c strict s) (queued : me ∈ s.queue)
    (follows : s.queue.head? ≠ some me) : ∃ a, Behind s.queue a me ∧ s.Linked c a me := by
  obtain ⟨a, behind⟩ := exists_behind queued follows
  exact ⟨a, behind, inv.link a me behind⟩

/-- A PE of the queue that nobody is linked to yet stands as before once somebody is. -/
theorem View.Stands.named {v : View} (stands : v.Stands c strict me pc) (queued : v.queued)
    (none : v.next = 0) (next : Nat) :
    View.Stands c strict { v with next := next } me pc := by
  -- Whoever is queued is not outside.
  have out {count : Int} (out : v.Out count) : View.Out { v with next := next } count :=
    absurd queued out.1
  cases pc with
  | idle | setMine => exact stands.imp out id
  | testMine tester =>
    cases tester with
    | set => exact out stands
    | test => exact stands.imp out id
  | increment after =>
    cases after with
    | attempt | queued => exact out stands
    | nested | retracted | granted | cleared => exact stands
  | packRead one after | packSwap one read after =>
    cases after with
    | attempt | queued | retracted => exact ⟨stands.1, out stands.2.1, stands.2.2⟩
    | nested | granted | cleared => exact stands
  | decrement decrementer =>
    cases decrementer with
    | test => exact out stands
    | clear => exact stands.imp out id
  | testSwap | waitTurn | serverGet | serverSwap | getTicket => exact out stands
  | clearNext | tryServer =>
    exact ⟨stands.1, stands.2.1, stands.2.2.imp id fun overtaken => absurd queued overtaken.1⟩
  -- These places have already found a next PE.
  | informServer =>
    have := stands.2
    omega
  | informGet | informSwap =>
    have := stands.2.2.2.2
    omega
  | serverPoll | turnInc | subscribe | repair | informFirst | informWait | informRead | prevGet
    | prevWait | resetRead | resetSwap => exact stands

/-- The state after a PE has named itself to the one before it. -/
def State.named (c : Config) (s : State) (a me : Nat) (prevPe : Option Nat) : State :=
  { s.write a (c.size.ofHalves (s.first c a) (me + 1)) with
    prevPe := prevPe
    pc := update s.pc me .informFirst }

/-- A PE that names itself to the one before it is linked to it. -/
theorem Inv.name {a : Nat} {prevPe : Option Nat} (inv : Inv c strict s)
    (wide : me + 1 < c.size.room)
    (here : s.pc me = .subscribe a) (behind : Behind s.queue a me) (none : s.second c a = 0)
    (kept : me = c.serverPe → prevPe = some a) (others : me ≠ c.serverPe → prevPe = s.prevPe) :
    Inv c strict (s.named c a me prevPe) := by
  have queues := inv.stands_at here
  have narrow := Nat.lt_of_lt_of_le wide c.size.room_le_base
  -- The word of the one before changes in its second half only.
  have firsts : (s.named c a me prevPe).first c = s.first c :=
    (s.first_write _ _ _ narrow).trans (update_eq_self ..)
  have seconds : (s.named c a me prevPe).second c = update (s.second c) a (me + 1) :=
    s.second_write _ _ _ narrow
  have levels : (s.named c a me prevPe).level c = s.level c :=
    State.level_congr rfl fun q _ => congrFun firsts q
  have pcs (q : Nat) (different : q ≠ me) : (s.named c a me prevPe).pc q = s.pc q :=
    update_of_ne different ..
  have now : (s.named c a me prevPe).pc me = .informFirst := update_self ..
  have apart : a ≠ me := behind.ne inv.nodup
  constructor
  · exact inv.nodup
  · exact inv.members
  · rw [firsts]
    exact inv.last
  · -- The one before is not the last, so the last one is untouched.
    intro pe last
    have different : pe ≠ a := fun same => behind.not_last inv.nodup (same ▸ last)
    rw [seconds, update_of_ne different]
    exact inv.ends pe last
  · intro pe
    rw [seconds]
    by_cases same : pe = a
    · rw [same, update_self]
      exact wide
    · rw [update_of_ne same]
      exact inv.room pe
  · exact inv.counted
  · intro q
    by_cases same : q = a
    · -- The one that is named stands where it stood.
      subst same
      have view : (s.named c q me prevPe).view c q = { s.view c q with next := me + 1 } := by
        unfold State.view
        congr 1
        · exact congrFun levels q
        · exact (congrFun seconds q).trans (update_self ..)
      rw [view, pcs q apart]
      exact (inv.stands q).named behind.mem_left none (me + 1)
    · have view : (s.named c a me prevPe).view c q = s.view c q := by
        unfold State.view
        congr 1
        · exact congrFun levels q
        · exact (congrFun seconds q).trans (update_of_ne same ..)
      rw [view]
      by_cases own : q = me
      · subst own
        rw [now]
        exact ⟨queues.1, queues.2.2.1, fun _ => queues.2.2.2, fun leads => absurd leads queues.2.1⟩
      · rw [pcs q own]
        exact inv.stands q
  · intro x b link
    unfold State.Linked
    -- One link changes: the one between the two.
    by_cases own : b = me
    · subst own
      obtain rfl := link.left_unique behind inv.nodup
      rw [now, seconds, update_self]
      exact ⟨rfl, kept⟩
    · have different : x ≠ a := fun same => own ((same ▸ link).right_unique behind inv.nodup)
      rw [pcs b own, seconds, update_of_ne different]
      exact LinkedAt.of_prev (inv.link x b link) fun server =>
        (others fun mine => own (server.trans mine.symm)).symm

/-- The fetch and add that names a PE to the one before it. -/
theorem Inv.go_subscribe {peLast : Nat} (inv : Inv c strict s) (wide : c.pes < c.size.room)
    (small : me < c.pes) (here : s.pc me = .subscribe peLast)
    (taken : s.go c me = some t) : Inv c strict t := by
  have queues := inv.stands_at here
  obtain ⟨a, behind, linked⟩ := inv.exists_linked queues.1 queues.2.1
  unfold State.Linked at linked
  rw [here] at linked
  -- The link says that the PE before is the one that was read, and that it names nobody.
  obtain ⟨rfl, none⟩ := linked
  have word := s.word_eq (c := c) peLast
  rw [none] at word
  -- Adding to an empty half writes it.
  have value : c.size.fadd (s.word peLast) (me + 1)
      = c.size.ofHalves (s.first c peLast) (me + 1) := by
    have narrow := c.size.room_le_base
    rw [word, fadd_eq (inv.first_lt wide peLast) (by omega), Nat.zero_add]
  have free : c.size.lockExtractPeNext (s.word peLast) = -1 := by
    rw [word, lockExtractPeNext_eq (by omega)]
    rfl
  simp only [State.go, here, Option.some.injEq] at taken
  rw [value, if_pos free] at taken
  subst taken
  -- Only the server keeps the one before for itself.
  by_cases server : me = c.serverPe
  · rw [if_pos server]
    exact inv.name (by omega) here behind none (fun _ => rfl) fun other => absurd server other
  · rw [if_neg server]
    exact inv.name (by omega) here behind none (fun own => absurd own server) fun _ => rfl

end EduMpi.Shmem.Lock
