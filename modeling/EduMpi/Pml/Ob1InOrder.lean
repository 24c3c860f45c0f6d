import EduMpi.Pml.Ob1OrderLaws

/-! Whatever the order of arrival, what ob1 hands to matching is a sender's stream in sending
order, as long as no fragment has to take the lead of a queue of rolled-over numbers. -/

namespace EduMpi.Ob1

open List CommProc

variable {e : Nat} {p : CommProc} {frag : RecvFrag}

/-- Taking off a head that is expected leaves a ring for the next expected number. -/
theorem Ordered.removeHead {head : Chain} {rest : List Chain}
    (ok : Ordered e (head :: rest)) (turn : head.first.num = e) :
    ∃ ring, removeHeadFromOrderedList (head :: rest) = some (head.first, ring)
      ∧ ringFrags (head :: rest) = head.first :: ringFrags ring ∧ Ordered (e + 1) ring := by
  -- The fragments that stay are all beyond the one that leaves.
  have shrink : ∀ ring, ringFrags (head :: rest) = head.first :: ringFrags ring →
      (∀ c ∈ ring, c.Run) →
      Ordered (e + 1) ring := by
    intro ring same runs
    have sorted := pairwise_cons.mp (same ▸ ok.ascending)
    refine ⟨fun f mem => ?_, runs, sorted.2⟩
    have near := ok.near f (same ▸ mem_cons_of_mem _ mem)
    have beyond := sorted.1 f mem
    exact ⟨near.seq, by omega, Nat.lt_trans near.upper (by omega)⟩
  have later : ∀ c ∈ rest, c.Run :=
    fun c mem => ok.runs c (mem_cons_of_mem _ mem)
  have run := ok.runs head mem_cons_self
  obtain ⟨first, range⟩ := head
  cases range with
  | nil => exact ⟨rest, rfl, rfl, shrink rest rfl later⟩
  | cons next range =>
    refine ⟨⟨next, range⟩ :: rest, rfl, rfl, shrink _ rfl fun c mem => ?_⟩
    rcases mem_cons.mp mem with rfl | mem
    · simp only [Chain.Run, Chain.frags, map_cons, length_cons, List.range'_succ,
        List.cons.injEq] at run ⊢
      exact ⟨trivial, run.2.1 ▸ run.2.2⟩
    · exact later c mem

/-- What the receiver keeps while `e` is the place in the stream of the expected message. -/
structure Expects (e : Nat) (p : CommProc) : Prop where
  expected : p.expectedSequence = e % 2 ^ 16
  ordered : Ordered e p.fragsCantMatch

/-- Nothing queued is the expected message. -/
def Drained (e : Nat) (p : CommProc) : Prop :=
  ∀ f ∈ ringFrags p.fragsCantMatch, f.num ≠ e

/-- From one state to a later one, the fragments `taken` were handed over, which are the next ones
of the stream, and those that waited or arrived and were not taken are queued. -/
structure Handed (e : Nat) (waiting taken : List RecvFrag)
    (p q : CommProc) : Prop where
  expects : Expects (e + taken.length) q
  drained : Drained (e + taken.length) q
  matched : q.matched = p.matched ++ taken
  inOrder : taken.map RecvFrag.num = List.range' e taken.length
  kept : (taken ++ ringFrags q.fragsCantMatch).Perm waiting

/-- The loop over the queue ends with nothing in it whose turn has come. -/
theorem Expects.matchQueued (queued : Nat) (ok : Expects e p)
    (enough : (ringFrags p.fragsCantMatch).length ≤ queued) :
    ∃ taken, Handed e (ringFrags p.fragsCantMatch) taken p (p.matchQueued queued) := by
  -- By induction on the fragments that are queued, since each turn takes one of them.
  induction queued generalizing e p with
  | zero =>
    have none_ := length_eq_zero_iff.mp (Nat.le_zero.mp enough)
    exact ⟨[], ok, by simp [Drained, matchQueued, none_], by simp [matchQueued],
      rfl, List.Perm.refl _⟩
  | succ queued ih =>
    obtain ⟨expected, ring, matched⟩ := p
    obtain ⟨rfl, ordered⟩ := ok
    cases ring with
    | nil => exact ⟨[], ⟨rfl, ordered⟩, by simp [Drained, matchQueued,
        checkCantmatchForMatch], (append_nil _).symm, rfl, List.Perm.refl _⟩
    | cons head rest =>
      obtain ⟨seq, lower, upper⟩ := ordered.near_first (c := head) mem_cons_self
      by_cases turn : head.first.num = e
      · -- The head is handed past, and the rest of the loop starts from the next number.
        obtain ⟨ring, removed, same, ordered⟩ := ordered.removeHead turn
        have onward : Expects (e + 1) (matchThisFrag head.first
            ⟨e % 2 ^ 16, ring, matched⟩) := ⟨by simp [matchThisFrag, matchOne],
              ordered⟩
        simp only [same] at enough
        obtain ⟨taken, expects, drained, handed, inOrder, kept⟩ :=
          ih onward (Nat.le_of_succ_le_succ enough)
        simp only [Nat.add_right_comm e 1] at expects drained
        refine ⟨head.first :: taken, ?_⟩
        have here : head.seq = e % 2 ^ 16 := turn ▸ seq
        simp only [matchQueued, checkCantmatchForMatch, if_pos here, removed, Option.map_some]
        refine ⟨expects, drained, by rw [handed]; simp [matchThisFrag, matchOne],
          by simp [turn, inOrder, List.range'_succ], same ▸ kept.cons _⟩
      · -- The head is not expected, and everything else in the queue is beyond it.
        have other : ¬ head.seq = e % 2 ^ 16 := by
          rw [Chain.seq]
          omega
        refine ⟨[], ?_⟩
        simp only [matchQueued, checkCantmatchForMatch, if_neg other]
        refine ⟨⟨rfl, ordered⟩, fun f mem => ?_, (append_nil _).symm, rfl, List.Perm.refl _⟩
        rcases mem_cons.mp mem with rfl | mem
        · exact turn
        · have := (pairwise_cons.mp ordered.ascending).1 f mem
          rw [length_nil]
          omega

/-- An arrival in sequence mode hands over a piece of the stream and queues the rest. -/
theorem Expects.arrive (ok : Expects e p) (drained : Drained e p) (near : Near e frag)
    (fresh : ∀ f ∈ ringFrags p.fragsCantMatch, f.num ≠ frag.num)
    (fits : HeadFits frag p.expectedSequence p.fragsCantMatch) {allowOvertake : Bool}
    (inSequence : allowOvertake = false ∨ frag.hdrTag < 0) :
    ∃ taken, Handed e (frag :: ringFrags p.fragsCantMatch) taken p
      (p.arrive allowOvertake frag) := by
  -- Both headers are handled alike in this mode.
  have alike : p.arrive allowOvertake frag = if frag.hdrSeq ≠ p.expectedSequence
      then p.queueFrag frag else p.recvFragMatchProc frag := by
    simp [CommProc.arrive, recvFragCallbackMatch, recvFragMatch, inSequence]
  rw [alike]
  obtain ⟨expected, ordered⟩ := ok
  obtain ⟨seq, lower, upper⟩ := id near
  split
  · -- The fragment is early and waits in the queue.
    rename_i early
    rw [expected] at fits early
    have queued := ordered.appendFrag near fresh fits
    have perm := appendFrag_perm frag (e % 2 ^ 16) p.fragsCantMatch
    have queue : (p.queueFrag frag).fragsCantMatch
        = appendFragToOrderedList frag (e % 2 ^ 16) p.fragsCantMatch := by
      rw [queueFrag, expected]
    refine ⟨[], ⟨expected, queue ▸ queued⟩, fun f mem => ?_, (append_nil _).symm, rfl, queue ▸ perm⟩
    rw [queue] at mem
    rcases mem_cons.mp (perm.mem_iff.mp mem) with rfl | old
    · rintro rfl
      exact early seq
    · exact drained f old
  · -- The fragment is the expected one, and the queue may go on with it.
    have here : frag.num = e := by omega
    have onward : Expects (e + 1) (p.matchThisFrag frag) := by
      refine ⟨by simp [matchThisFrag, matchOne, expected], { ordered with near := fun f mem => ?_ }⟩
      have old := ordered.near f mem
      exact ⟨old.seq, Nat.lt_of_le_of_ne old.lower (drained f mem).symm,
        Nat.lt_trans old.upper (by omega)⟩
    obtain ⟨taken, expects, drained, handed, inOrder, kept⟩ :=
      onward.matchQueued _ (Nat.le_refl _)
    simp only [Nat.add_right_comm e 1] at expects drained
    refine ⟨frag :: taken, expects, drained, ?_, by simp [here, inOrder, List.range'_succ],
      kept.cons _⟩
    rw [recvFragMatchProc, matchCantMatch, handed]
    simp [matchThisFrag, matchOne]

/-- The states the receiver reaches with a sender whose messages are numbered from `start` on,
and the fragments seen so far. Each new fragment lies less than half the numbers beyond the
expected message, and fits the queue it may have to join. -/
inductive Reached (start : Nat) : List RecvFrag → CommProc → Prop where
  | start : Reached start [] ⟨start % 2 ^ 16, [], []⟩
  | arrive {seen : List RecvFrag} {p : CommProc} (frag : RecvFrag) (before : Reached start seen p)
      (first : start ≤ frag.num) (numbered : frag.hdrSeq = frag.num % 2 ^ 16)
      (fresh : ∀ f ∈ seen, f.num ≠ frag.num)
      (near : frag.num < start + p.matched.length + 2 ^ 15)
      (fits : HeadFits frag p.expectedSequence p.fragsCantMatch) :
      Reached start (seen ++ [frag]) (p.arrive false frag)

/-- The invariant of such a run: the messages handed over are the first ones, and nothing that
was seen got lost. -/
theorem Reached.invariant {start : Nat} {seen : List RecvFrag} {p : CommProc}
    (reached : Reached start seen p) :
    Expects (start + p.matched.length) p ∧ Drained (start + p.matched.length) p
      ∧ p.matched.map RecvFrag.num = List.range' start p.matched.length
      ∧ (p.matched ++ ringFrags p.fragsCantMatch).Perm seen := by
  induction reached with
  | start => exact ⟨⟨rfl, by simp, by simp, by simp⟩, by simp [Drained], rfl, by simp⟩
  | @arrive seen p frag before first numbered fresh near fits ih =>
    obtain ⟨expects, drained, inOrder, kept⟩ := ih
    -- The handed messages are those below the expected one, so a fresh one is not among them.
    have lower : start + p.matched.length ≤ frag.num := by
      by_contra below
      have listed : frag.num ∈ p.matched.map RecvFrag.num := by
        rw [inOrder, mem_range'_1]
        omega
      obtain ⟨f, mem, same⟩ := mem_map.mp listed
      exact fresh f (kept.subset (mem_append_left _ mem)) same
    obtain ⟨taken, expects, drained, matched, next, all⟩ := expects.arrive drained
      ⟨numbered, lower, near⟩
      (fun f mem => fresh f (kept.subset (mem_append_right _ mem))) fits (.inl rfl)
    have count : (p.arrive false frag).matched.length = p.matched.length + taken.length := by
      rw [matched, length_append]
    rw [count, ← Nat.add_assoc]
    refine ⟨expects, drained, ?_, ?_⟩
    · rw [matched, map_append, inOrder, next]
      exact List.range'_append_1
    · rw [matched, append_assoc]
      have moved := (all.append_left p.matched).trans perm_middle
      exact (moved.trans (kept.cons frag)).trans (perm_append_singleton frag seen).symm

/-- In every such run each message is handed to matching once and in sending order, and as soon
as it and all its predecessors have arrived; a message is queued only behind a missing one. -/
theorem handed_in_sending_order {start : Nat} {seen : List RecvFrag} {p : CommProc}
    (reached : Reached start seen p) :
    p.matched.map RecvFrag.num = List.range' start p.matched.length
      ∧ (p.matched ++ ringFrags p.fragsCantMatch).Perm seen
      ∧ (∀ f ∈ seen, (∀ i, start ≤ i → i ≤ f.num → ∃ g ∈ seen, g.num = i) → f ∈ p.matched)
      ∧ ∀ f ∈ ringFrags p.fragsCantMatch, ∃ i, start ≤ i ∧ i < f.num ∧ ∀ g ∈ seen, g.num ≠ i := by
  obtain ⟨expects, drained, inOrder, kept⟩ := reached.invariant
  -- The missing predecessor of everything queued is the expected message.
  have missing : ∀ f ∈ ringFrags p.fragsCantMatch,
      ∃ i, start ≤ i ∧ i < f.num ∧ ∀ g ∈ seen, g.num ≠ i := by
    intro f mem
    have lower := (expects.ordered.near f mem).lower
    have apart := drained f mem
    refine ⟨start + p.matched.length, by omega, by omega, fun g arrived same => ?_⟩
    rcases mem_append.mp (kept.mem_iff.mpr arrived) with handed | queued
    · have listed := mem_map_of_mem (f := RecvFrag.num) handed
      rw [inOrder, mem_range'_1] at listed
      omega
    · exact drained g queued same
  refine ⟨inOrder, kept, fun f arrived whole => ?_, missing⟩
  rcases mem_append.mp (kept.mem_iff.mpr arrived) with handed | queued
  · exact handed
  · obtain ⟨i, first, less, absent⟩ := missing f queued
    obtain ⟨g, mem, same⟩ := whole i first (Nat.le_of_lt less)
    exact absurd same (absent g mem)

/-- The first fragment of a plain message. -/
def plainFrag (num : Nat) : RecvFrag := ⟨num, .match, 0, num % 2 ^ 16⟩

/-- A message numbered 0 that arrives before the one numbered 65535 waits for it. -/
theorem rolled_over_in_order :
    let seen := [plainFrag 65536, plainFrag 65535]
    let p := seen.foldl (fun p frag => CommProc.arrive false frag p) ⟨65535, [], []⟩
    p.matched.map RecvFrag.num = [65535, 65536] ∧ ∀ f ∈ seen, f ∈ p.matched := by
  have run := handed_in_sending_order (.arrive (plainFrag 65535) (.arrive (plainFrag 65536)
    (show Reached 65535 [] _ from .start) (by decide) (by decide) (by decide) (by decide) trivial)
    (by decide) (by decide) (by decide) (by decide) (by decide))
  exact ⟨run.1.trans (by decide), by decide⟩

/-- Numbers 3 and 1 are queued in this order while 65535 is expected. The queue keeps 3 in its
lead, so 1 stays in it after its predecessors 65535 and 0 were handed over. -/
theorem second_stays_queued :
    let seen := [plainFrag 65539, plainFrag 65537, plainFrag 65535, plainFrag 65536]
    let p := seen.foldl (fun p frag => CommProc.arrive false frag p) ⟨65535, [], []⟩
    p.matched.map RecvFrag.num = [65535, 65536] ∧ plainFrag 65537 ∈ ringFrags p.fragsCantMatch
      ∧ ∀ i, 65535 ≤ i → i ≤ (plainFrag 65537).num → ∃ g ∈ seen, g.num = i := by
  refine ⟨by decide, by decide, fun i lower upper => ?_⟩
  obtain rfl | rfl | rfl : i = 65535 ∨ i = 65536 ∨ i = 65537 := by
    have := show i ≤ 65537 from upper
    omega
  all_goals decide

end EduMpi.Ob1
