import EduMpi.Shmem.LockQueue

/-! The steps by which the distributed lock changes hands. -/

namespace EduMpi.Shmem.Lock

open Ints Queue LockSize List Option State
open Function (update update_eq_self update_of_ne update_self)

variable {c : Config} {strict : Prop} {s t : State} {me : Nat} {pc : Pc} {rest : List Nat}

/-- The first PE of the queue leaves it. -/
theorem Inv.leave {first : Nat} (inv : Inv c strict s) (queue : s.queue = first :: rest)
    (after : t.queue = rest) (seconds : t.second c = s.second c)
    (last : t.first c c.serverPe = (rest.getLast?.map (· + 1)).getD 0)
    (prev : t.prevPe = s.prevPe) (counted : ∀ count, t.counter = some count → 0 < count)
    (leaves : (t.view c first).Stands c strict first (t.pc first))
    (leads : ∀ q, rest.head? = some q → (t.view c q).Stands c strict q (t.pc q))
    (others : ∀ q, q ≠ first → rest.head? ≠ some q →
      t.pc q = s.pc q ∧ t.depth q = s.depth q ∧ t.level c q = s.level c q) :
    Inv c strict t := by
  have distinct := inv.nodup
  rw [queue] at distinct
  obtain ⟨gone, distinct⟩ := nodup_cons.mp distinct
  -- The first PE goes, so the queue only gets shorter.
  have member (q : Nat) (inside : q ∈ rest) : q ∈ s.queue :=
    queue ▸ mem_cons_of_mem _ inside
  constructor
  · exact after ▸ distinct
  · intro pe inside
    exact inv.members pe (member pe (after ▸ inside))
  · rw [after]
    exact last
  · rw [after, seconds]
    -- The last PE is still the last one, unless the one that left was alone.
    intro pe isLast
    apply inv.ends
    cases rest with
    | nil => cases isLast
    | cons q more => rwa [queue]
  · rw [seconds]
    exact inv.room
  · exact counted
  · intro q
    by_cases same : q = first
    · exact same ▸ leaves
    by_cases head : rest.head? = some q
    · exact leads q head
    -- Nothing changes for a PE further behind.
    obtain ⟨pcs, depths, levels⟩ := others q same head
    have view : t.view c q = s.view c q := by
      unfold State.view
      congr 1
      · rw [after, queue]
        exact propext (mem_cons.trans (or_iff_right same)).symm
      · rw [after, queue, List.head?_cons, some.injEq]
        exact propext (iff_of_false head (Ne.symm same))
      · exact congrFun seconds q
    rw [view, pcs]
    exact inv.stands q
  · -- The pairs that are left were pairs before.
    rw [after]
    intro a b behind
    have different : b ≠ first := fun same => gone (same ▸ behind.mem_right)
    unfold State.Linked
    rw [seconds, prev, (others b different (behind.not_head distinct)).1]
    apply inv.link a b
    rw [queue]
    exact behind_cons.mpr (.inr behind)

/-- The PE named as next stands behind. -/
theorem Inv.exists_next {q : Nat} (inv : Inv c strict s) (leads : s.queue.head? = some me)
    (next : s.second c me = q + 1) :
    ∃ rest, s.queue = me :: q :: rest ∧ LinkedAt c me q (q + 1) s.prevPe (s.pc q) := by
  obtain ⟨behind, queue⟩ := List.head?_eq_some_iff.mp leads
  -- A PE that is alone at the end names nobody.
  cases behind with
  | nil =>
    have ends := inv.ends me (by rw [queue]; rfl)
    omega
  | cons b rest =>
    have linked := inv.link me b (by rw [queue]; exact .inl ⟨rfl, rfl⟩)
    have same : b = q := by
      unfold State.Linked at linked
      rw [next] at linked
      revert linked
      -- By the places in the code: a next entry that is set names the PE behind.
      cases s.pc b <;> intro linked <;> first
        | exact linked.elim
        | exact absurd linked.2 (Nat.succ_ne_zero q)
        | exact (Nat.succ.inj linked.1).symm
        | exact (Nat.succ.inj linked.2).symm
        | exact (Nat.succ.inj linked).symm
    subst same
    unfold State.Linked at linked
    rw [next] at linked
    exact ⟨rest, queue, linked⟩

/-- A PE that is named as next waits, and does so in the same way once it leads the queue. -/
theorem View.Stands.waits {a : Nat} {prevPe : Option Nat} {v : View}
    (stands : v.Stands c strict me pc) (linked : LinkedAt c a me (me + 1) prevPe pc) :
    v.Waits c me ∧ ∀ w : View, w.Waits c me → w.Stands c strict me pc := by
  cases pc with
  | informFirst => exact ⟨stands, fun w waits => waits⟩
  | informWait | informRead => exact ⟨stands.2.1, fun w waits => ⟨stands.1, waits, stands.2.2⟩⟩
  | prevGet | prevWait => exact ⟨stands.2, fun w waits => ⟨stands.1, waits⟩⟩
  -- These places have not named themselves to the PE in front yet.
  | serverPoll | turnInc | subscribe => exact absurd linked.2 (Nat.succ_ne_zero me)
  | _ => exact linked.elim

/-- A PE that has handed the lock over stands outside of the queue. -/
theorem State.dequeue_eq (queue : s.queue = me :: rest) (t : State) (same : t.queue = s.queue) :
    (t.dequeue me).queue = rest := by
  unfold dequeue
  rw [same, queue]
  exact erase_cons_head ..

/-- The compare and swap by which the last PE empties the queue. -/
theorem Inv.go_tryServer (inv : Inv c strict s) (wide : c.pes < c.size.room) (small : me < c.pes)
    (here : s.pc me = .tryServer) (taken : s.go c me = some t) : Inv c strict t := by
  simp only [go, here, some.injEq] at taken
  subst taken
  have releases := inv.stands_at here
  have narrow := c.size.room_le_base
  rw [lockPackPeNextPeLast_eq (by omega)]
  unfold cswap
  split
  next named =>
    -- The server word still names this PE as the last, so nobody stands behind it.
    rw [s.word_eq (c := c) c.serverPe,
      ofHalves_inj (Nat.lt_of_lt_of_le (inv.room _) narrow) base_pos] at named
    have ends := inv.getLast?_eq named.1
    have leads : s.queue.head? = some me :=
      releases.2.2.elim id fun overtaken => absurd (mem_of_getLast? ends) overtaken.1
    have queue : s.queue = [me] := by
      obtain ⟨rest, queue⟩ := List.head?_eq_some_iff.mp leads
      cases rest with
      | nil => exact queue
      | cons b more =>
        have behind : Behind s.queue me b := by
          rw [queue]
          exact .inl ⟨rfl, rfl⟩
        exact absurd ends (behind.not_last inv.nodup)
    have zero : (0 : Nat) = c.size.ofHalves 0 0 := (Nat.zero_mul _).symm
    rw [zero]
    -- The server word becomes zero; its second half was zero before.
    have firsts := s.first_write (c := c) c.serverPe 0 0 base_pos
    have seconds := s.second_write (c := c) c.serverPe 0 0 base_pos
    have unchanged : update (s.second c) c.serverPe 0 = s.second c := by
      rw [← named.2]
      exact update_eq_self ..
    rw [unchanged] at seconds
    have levels : (s.write c.serverPe (c.size.ofHalves 0 0)).level c = s.level c :=
      State.level_congr rfl fun q other => by rw [firsts, update_of_ne other]
    have after := dequeue_eq queue (s.write c.serverPe (c.size.ofHalves 0 0)) rfl
    refine inv.leave (t := ((s.write c.serverPe (c.size.ofHalves 0 0)).dequeue me).goTo me
      .resetRead) queue after seconds ?_ rfl inv.counted ?_ ?_ ?_
    · exact (congrFun firsts _).trans (update_self ..)
    · have now : (((s.write c.serverPe (c.size.ofHalves 0 0)).dequeue me).goTo me .resetRead).pc me
          = .resetRead := update_self ..
      rw [now]
      refine ⟨?_, releases.1, (congrFun levels me).trans releases.2.1⟩
      intro queued
      change me ∈ ((s.write c.serverPe (c.size.ofHalves 0 0)).dequeue me).queue at queued
      rw [after] at queued
      exact not_mem_nil queued
    · intro q head
      cases head
    · exact fun q different _ => ⟨update_of_ne different .., rfl, congrFun levels q⟩
  -- Somebody has joined in between: the release goes on to inform it.
  next => exact inv.goTo_free releases.free releases

/-- The compare and swap that sets the inform bit of the next PE. -/
theorem Inv.go_informSwap {peNext read : Nat} (inv : Inv c strict s)
    (here : s.pc me = .informSwap peNext read)
    (taken : s.go c me = some t) : Inv c strict t := by
  simp only [go, here, some.injEq] at taken
  subst taken
  have stands := inv.stands_at here
  unfold cswap
  split
  next same =>
    subst same
    obtain ⟨other, leads, depth, level, next⟩ := stands
    obtain ⟨rest, queue, linked⟩ := inv.exists_next leads next
    obtain ⟨waits, still⟩ := (inv.stands peNext).waits linked
    have distinct := inv.nodup
    rw [queue] at distinct
    have apart : me ≠ peNext := fun same =>
      (nodup_cons.mp distinct).1 (same ▸ mem_cons_self)
    have narrow := Nat.lt_of_lt_of_le (inv.room peNext) c.size.room_le_base
    have half : 1 < c.size.base / 2 := by cases c.size <;> decide
    -- The next PE has not been informed before.
    have one : s.first c peNext = 1 := (waits.first other).trans (if_neg (by simpa [queue]))
    have value : c.size.inform (s.word peNext)
        = c.size.ofHalves (1 + c.size.base / 2) (s.second c peNext) := by
      rw [s.word_eq (c := c) peNext, one]
      exact inform_eq half narrow
    rw [value]
    have firsts := s.first_write peNext (1 + c.size.base / 2) _ narrow
    have seconds := s.second_write peNext (1 + c.size.base / 2) _ narrow
    rw [update_eq_self] at seconds
    -- The written state is a state of its own, of which only the two halves are used.
    generalize written : s.write peNext (c.size.ofHalves (1 + c.size.base / 2) (s.second c peNext))
      = w at firsts seconds
    have after := dequeue_eq queue w (by rw [← written]; rfl)
    have levels (q : Nat) (different : q ≠ peNext) : w.level c q = s.level c q := by
      unfold State.level
      rw [firsts, update_of_ne different, ← written]
      rfl
    have pcs (q : Nat) (different : q ≠ me) : ((w.dequeue me).goTo me .resetRead).pc q = s.pc q := by
      rw [← written]
      exact update_of_ne different ..
    have depths : ((w.dequeue me).goTo me .resetRead).depth = s.depth := by
      rw [← written]
      rfl
    refine inv.leave (t := (w.dequeue me).goTo me .resetRead) queue after seconds ?_ ?_ ?_ ?_ ?_ ?_
    · have last := inv.last
      rw [queue] at last
      refine (congrFun firsts _).trans ?_
      rw [update_of_ne (Ne.symm other)]
      exact last
    · rw [← written]
      rfl
    · rw [← written]
      exact inv.counted
    · have now : ((w.dequeue me).goTo me .resetRead).pc me = .resetRead := update_self ..
      rw [now]
      refine ⟨?_, (congrFun depths me).trans depth, (levels me apart).trans level⟩
      change me ∉ (w.dequeue me).queue
      rw [after]
      exact (nodup_cons.mp distinct).1
    · -- The next PE now leads the queue, with its bit set.
      intro q head
      obtain rfl : peNext = q := some.inj head
      rw [pcs peNext (Ne.symm apart)]
      apply still
      have first : ((w.dequeue me).goTo me .resetRead).queue.head? = some peNext :=
        (congrArg List.head? after).trans rfl
      refine ⟨mem_of_mem_head? first, (congrFun depths _).trans waits.2.1,
        fun follows => absurd first follows, fun _ => ?_⟩
      rw [if_neg other]
      change w.level c peNext = _
      unfold State.level
      rw [if_neg other, firsts, update_self]
    · intro q different head
      have notNext : q ≠ peNext := fun same => head (congrArg some same.symm)
      exact ⟨pcs q different, congrFun depths q, levels q notNext⟩
  next => exact inv.goTo_free (.inr stands.2.1) stands

/-- The server is informed through a counter instead of its word. -/
theorem Inv.go_informServer {peNext : Nat} (inv : Inv c strict s)
    (here : s.pc me = .informServer peNext)
    (taken : s.go c me = some t) : Inv c strict t := by
  simp only [go, here, some.injEq] at taken
  subst taken
  have stands := inv.stands_at here
  obtain ⟨⟨depth, level, place⟩, next⟩ := stands
  have moved := inv.untouched s.lockTurn s.lockLastTicket (int32 (s.lockInform + 1))
  set informed : State := { s with lockInform := int32 (s.lockInform + 1) }
  rcases place with leads | ⟨outside, _⟩
  · obtain ⟨rest, queue, linked⟩ := inv.exists_next leads next
    obtain ⟨waits, still⟩ := (inv.stands c.serverPe).waits linked
    have distinct := inv.nodup
    rw [queue] at distinct
    have apart : me ≠ c.serverPe := fun same =>
      (nodup_cons.mp distinct).1 (same ▸ mem_cons_self)
    have after := dequeue_eq queue informed rfl
    refine moved.leave (t := (dequeue informed me).goTo me .resetRead) queue after rfl ?_ rfl
      inv.counted ?_ ?_ ?_
    · have last := inv.last
      rw [queue] at last
      exact last
    · have now : ((dequeue informed me).goTo me .resetRead).pc me = .resetRead := update_self ..
      rw [now]
      refine ⟨?_, depth, level⟩
      change me ∉ (dequeue informed me).queue
      rw [after]
      exact (nodup_cons.mp distinct).1
    · -- The server leads the queue now and still has to find out.
      intro q head
      obtain rfl : c.serverPe = q := some.inj head
      have same : ((dequeue informed me).goTo me .resetRead).pc c.serverPe = s.pc c.serverPe :=
        update_of_ne (Ne.symm apart) ..
      rw [same]
      apply still
      have first : ((dequeue informed me).goTo me .resetRead).queue.head? = some c.serverPe :=
        (congrArg List.head? after).trans rfl
      have follows : s.queue.head? ≠ some c.serverPe := by
        rw [queue, List.head?_cons, Ne, some.injEq]
        exact apart
      refine ⟨mem_of_mem_head? first, waits.2.1, fun behind => absurd first behind, fun _ => ?_⟩
      rw [if_pos rfl]
      exact waits.2.2.1 follows
    · exact fun q different _ => ⟨update_of_ne different .., rfl, rfl⟩
  · -- The server has taken the lock over already.
    have same : dequeue informed me = informed := by
      unfold dequeue
      rw [erase_of_not_mem outside]
    rw [same]
    exact moved.goTo_free (.inl outside) ⟨outside, depth, level⟩

/-- A PE that leaves the release branch to the server stands there as before. -/
theorem View.HandsOver.overtaken {v w : View} (hands : v.HandsOver c pc)
    (next : w.next = c.serverPe + 1) (same : v.next = w.next) (outside : ¬ w.queued)
    (depth : w.depth = 0) (level : w.level = 0) : w.Stands c strict me pc := by
  have releases : w.Releases c := ⟨depth, level, .inr ⟨outside, next⟩⟩
  cases pc with
  | clearNext => exact releases
  | tryServer => exact releases
  | informServer => exact ⟨releases, next⟩
  | informGet | informSwap =>
    exact absurd (Nat.succ.inj (hands.2.symm.trans (same.trans next))) hands.1
  | _ => exact hands.elim

/-- A PE that is about to hand the lock over has cleared it. -/
theorem View.Stands.depth_eq_zero {v : View} (stands : v.Stands c strict me pc)
    (hands : v.HandsOver c pc) : v.depth = 0 := by
  cases pc with
  | clearNext => exact stands.1
  | tryServer => exact stands.1
  | informServer => exact stands.1.1
  | informGet | informSwap => exact stands.2.2.1
  | _ => exact hands.elim

/-- The server looks at the word of its predecessor instead of waiting for a bit. -/
theorem Inv.go_prevGet {prevPe : Nat} {prevValue : Int} (inv : Inv c strict s)
    (here : s.pc me = .prevGet prevPe prevValue)
    (taken : s.go c me = some t) : Inv c strict t := by
  simp only [go, here] at taken
  have stands := inv.stands_at here
  obtain ⟨server, waits⟩ := stands
  -- The server has no inform bit, so its count is one in both cases.
  have one : s.level c me = 1 := by
    by_cases leads : s.queue.head? = some me
    · have := waits.2.2.2 leads
      rw [if_pos server] at this
      exact this
    · exact waits.2.2.1 leads
  have depth : s.depth me = 0 := waits.2.1
  split at taken
  next => exact some.inj taken ▸ inv.goTo_behind here ⟨server, waits⟩ fun a linked => linked
  next done =>
    obtain rfl := some.inj taken
    by_cases leads : s.queue.head? = some me
    · -- The predecessor has left the queue already.
      obtain ⟨rest, queue⟩ := List.head?_eq_some_iff.mp leads
      have same : s.takesOver me = s := by
        unfold takesOver
        rw [queue, dropWhile_cons_of_neg (by simp), ← queue]
      rw [same]
      exact inv.acquired leads depth one
    · -- The predecessor is in its release branch, although the server word does not show it.
      obtain ⟨a, behind, linked⟩ := inv.exists_linked waits.1 leads
      unfold State.Linked at linked
      rw [here] at linked
      obtain ⟨rfl, next⟩ := linked
      have apart : prevPe ≠ me := behind.ne inv.nodup
      have named : c.size.lockExtractPeNext (s.word prevPe) = me := by
        rw [s.word_eq (c := c) prevPe, lockExtractPeNext_eq (inv.room prevPe)]
        omega
      have other : prevPe ≠ c.serverPe := server ▸ apart
      -- The read value is no positive count with the server behind it, so the count is zero.
      rcases (inv.stands prevPe).counted with counted | ⟨level, handing⟩
      · exact absurd ⟨inv.extracted_pos other counted, named⟩ done
      obtain ⟨first, hands⟩ := handing behind.mem_left
      obtain ⟨rest, queue, _⟩ := inv.exists_next first next
      have distinct := inv.nodup
      rw [queue] at distinct
      have after : (s.takesOver me).queue = me :: rest := by
        unfold takesOver
        rw [queue, dropWhile_cons_of_pos (by simpa using apart), dropWhile_cons_of_neg (by simp)]
      have now : ((s.takesOver me).acquired me).pc me = .idle := update_self ..
      have deeper : ((s.takesOver me).acquired me).depth me = s.depth me + 1 :=
        update_self ..
      -- The server takes the place of the predecessor, who finds out later.
      refine inv.leave (t := (s.takesOver me).acquired me) queue after rfl ?_ rfl inv.counted
        ?_ ?_ ?_
      · have last := inv.last
        rw [queue] at last
        exact last
      · -- The predecessor goes on with its release, but is not in the queue any more.
        have pcs : ((s.takesOver me).acquired me).pc prevPe = s.pc prevPe :=
          update_of_ne apart ..
        rw [pcs]
        refine hands.overtaken (next.trans (by rw [server])) rfl ?_ ?_ level
        · change prevPe ∉ (s.takesOver me).queue
          rw [after]
          exact (nodup_cons.mp distinct).1
        · exact (update_of_ne apart ..).trans ((inv.stands prevPe).depth_eq_zero hands)
      · -- The server holds the lock at depth one.
        intro q head
        obtain rfl : me = q := some.inj head
        rw [now]
        refine .inr ⟨(congrArg List.head? after).trans rfl, ?_, ?_, ?_⟩
        · change 0 < s.level c me
          rw [one]
          exact Int.one_pos
        · change s.level c me < _
          rw [one]
          exact c.one_lt_limit me
        · change (((s.takesOver me).acquired me).depth me : Int) ≤ s.level c me
            ∧ (strict → s.level c me ≤ ((s.takesOver me).acquired me).depth me)
          rw [deeper, depth, one]
          exact ⟨Int.le_refl _, fun _ => Int.le_refl _⟩
      · intro q different head
        have notMe : q ≠ me := fun same => head (congrArg some same.symm)
        exact ⟨update_of_ne notMe .., update_of_ne notMe .., rfl⟩

end EduMpi.Shmem.Lock
