import EduMpi.Pml.Ob1Order

/-! What ob1 hands to matching is the sender's stream in sending order, as long as a fragment
that should become the head of the out-of-sequence queue does become it. -/

namespace EduMpi.Ob1

open List Chain

/-- A fragment numbered by the low bits of its place in the stream, not far beyond `e`. -/
structure Near (e : Nat) (f : RecvFrag) : Prop where
  seq : f.hdrSeq = f.num % 2 ^ 16
  lower : e ≤ f.num
  upper : f.num < e + 2 ^ 15

/-- The fragments of a chain are numbered one after the other. -/
def Chain.Run (c : Chain) : Prop :=
  c.frags.map RecvFrag.num = List.range' c.first.num c.frags.length

/-- A ring whose chains hold consecutive fragments, in stream order from the head on. -/
structure Ordered (e : Nat) (ring : List Chain) : Prop where
  near : ∀ f ∈ ringFrags ring, Near e f
  runs : ∀ c ∈ ring, c.Run
  ascending : (ringFrags ring).Pairwise fun f g => f.num < g.num

variable {e : Nat} {ring before after : List Chain} {c : Chain} {frag f : RecvFrag}
  {rest : List Chain} {head : Chain}

@[simp] theorem ringFrags_nil : ringFrags [] = [] := rfl

@[simp] theorem ringFrags_cons : ringFrags (c :: ring) = c.frags ++ ringFrags ring := rfl

@[simp] theorem ringFrags_append :
    ringFrags (before ++ after) = ringFrags before ++ ringFrags after := by
  simp [ringFrags]

@[simp] theorem Chain.frags_join (more : List RecvFrag) : (c.join more).frags = c.frags ++ more :=
  rfl

@[simp] theorem Chain.frags_single : frags ⟨frag, []⟩ = [frag] := rfl

theorem mem_ringFrags (mem : c ∈ ring) (own : f ∈ c.frags) : f ∈ ringFrags ring :=
  mem_flatMap.mpr ⟨c, mem, own⟩

theorem Ordered.near_first (ok : Ordered e ring) (mem : c ∈ ring) : Near e c.first :=
  ok.near _ (mem_ringFrags mem mem_cons_self)

/-- In a chain of consecutive fragments the largest is the last. -/
theorem Chain.num_last (run : c.Run) :
    (c.range.getLastD c.first).num = c.first.num + c.range.length := by
  -- The last entry of both sides of the equation is compared.
  have last := congrArg (fun l : List Nat => l.getLast?) run
  simpa [frags, List.getLast?_range', List.getLast?_cons] using last

theorem Chain.last_mem (c : Chain) : c.range.getLastD c.first ∈ c.frags := by
  rw [getLastD_eq_getLast?]
  cases found : c.range.getLast? with
  | none => exact mem_cons_self
  | some f => exact mem_cons_of_mem _ (mem_of_getLast? found)

/-- The chains are in stream order, and do not interleave. -/
theorem Ordered.chains (ok : Ordered e ring) :
    ring.Pairwise fun a b => a.first.num + a.range.length < b.first.num := by
  have apart := (pairwise_flatMap.mp ok.ascending).2
  refine apart.imp_of_mem fun {a b} mem _ below => ?_
  have last := below _ a.last_mem _ mem_cons_self
  rwa [num_last (ok.runs a mem)] at last

section

variable (ok : Ordered e ring) (mem : c ∈ ring)

include ok mem

theorem Ordered.mem_run (own : f ∈ c.frags) :
    c.first.num ≤ f.num ∧ f.num ≤ c.first.num + c.range.length := by
  have listed : f.num ∈ c.frags.map RecvFrag.num := mem_map_of_mem own
  rw [ok.runs c mem, mem_range'_1] at listed
  simp only [frags, length_cons] at listed
  omega

/-- The largest number of a chain, by its place in the stream. -/
theorem Ordered.upper_eq :
    c.upper = (c.first.num + c.range.length) % 2 ^ 16
      ∧ c.first.num + c.range.length < e + 2 ^ 15 := by
  have last := num_last (ok.runs c mem)
  have near := ok.near _ (mem_ringFrags mem c.last_mem)
  exact ⟨by rw [Chain.upper, near.seq, last], last ▸ near.upper⟩

/-- A fragment beyond the first of a chain that is not in it comes after all of the chain. -/
theorem Ordered.beyond (fresh : ∀ f ∈ ringFrags ring, f.num ≠ frag.num)
    (behind : c.first.num < frag.num) :
    c.first.num + c.range.length < frag.num := by
  -- Otherwise its number is one of the consecutive ones.
  by_contra inside
  have listed : frag.num ∈ c.frags.map RecvFrag.num := by
    rw [ok.runs c mem, mem_range'_1]
    simp only [frags, length_cons]
    omega
  obtain ⟨f, own, same⟩ := mem_map.mp listed
  exact fresh f (mem_ringFrags mem own) same

end

/-- Where a search for the place of `frag` ends, in a ring that starts with `head`: right behind
the last chain that starts before it, or at the end of the ring if there is none. -/
structure Placed (frag : RecvFrag) (head : Chain) (found : Place) :
    Prop where
  within : head.first.num < frag.num →
    found.parent.first.num < frag.num ∧ ∀ c ∈ found.after, frag.num < c.first.num
  ahead : frag.num < head.first.num → found.after = []

theorem searchForward_split (hdrSeq : Nat) (prior : Chain) (rest : List Chain) :
    let found := searchForward hdrSeq prior rest
    found.before ++ found.parent :: found.after = prior :: rest := by
  induction rest generalizing prior with
  | nil => rfl
  | cons next rest ih =>
    simp only [searchForward]
    split
    · simpa using ih next
    · rfl

/-- The search forwards stops at the roll-over only if the fragment is not beyond it. -/
theorem searchForward_placed {prior : Chain} (mine : Near e frag)
    (near : ∀ c ∈ prior :: rest, Near e c.first)
    (firsts : (prior :: rest).Pairwise fun a b => a.first.num < b.first.num)
    (fresh : ∀ c ∈ prior :: rest, c.first.num ≠ frag.num) (behind : prior.seq < frag.hdrSeq) :
    Placed frag prior (searchForward frag.hdrSeq prior rest) := by
  induction rest generalizing prior with
  | nil => exact ⟨fun below => ⟨below, by simp [searchForward]⟩, fun _ => rfl⟩
  | cons next rest ih =>
    obtain ⟨below, firsts⟩ := pairwise_cons.mp firsts
    have less := below next mem_cons_self
    have apart := fresh next (by simp)
    have here := near prior mem_cons_self
    have there := near next (by simp)
    obtain ⟨mineSeq, mineLower, mineUpper⟩ := mine
    obtain ⟨hereSeq, hereLower, hereUpper⟩ := here
    obtain ⟨thereSeq, thereLower, thereUpper⟩ := there
    simp only [searchForward]
    split
    · rename_i onward
      -- The search goes on, and both chains are on the same side of the fragment.
      have further := ih (fun c mem => near c (mem_cons_of_mem _ mem)) firsts
        (fun c mem => fresh c (mem_cons_of_mem _ mem)) onward.2.1
      simp only [Chain.seq] at onward
      exact ⟨fun _ => further.within (by omega), fun _ => further.ahead (by omega)⟩
    · rename_i stopped
      simp only [Chain.seq] at stopped behind
      -- It stops because the next chain is beyond the fragment, rolled over or not.
      refine ⟨fun under => ⟨under, fun c mem => ?_⟩, fun past => by omega⟩
      have beyond : frag.num < next.first.num := by omega
      rcases mem_cons.mp mem with rfl | later
      · exact beyond
      · exact Nat.lt_trans beyond ((pairwise_cons.mp firsts).1 c later)

theorem searchBackward_split (hdrSeq : Nat) (head : Chain) (d1 : Nat) (after rest : List Chain) :
    let found := searchBackward hdrSeq head d1 after rest
    found.before ++ found.parent :: found.after = head :: (rest.reverse ++ after) := by
  induction rest generalizing d1 after with
  | nil => rfl
  | cons prior rest ih =>
    simp only [searchBackward]
    split
    · simpa using ih _ (prior :: after)
    · simp

/-- Whichever search is made, what it finds is a place of the ring. -/
theorem found_split (hdrSeq : Nat) (head : Chain) (rest : List Chain) :
    let found :=
      if hdrSeq < head.seq then
        searchBackward hdrSeq head (seqDiff head.seq hdrSeq) [] rest.reverse
      else searchForward hdrSeq head rest
    found.before ++ found.parent :: found.after = head :: rest := by
  split
  · simpa using searchBackward_split _ head _ [] rest.reverse
  · exact searchForward_split _ head rest

/-- Merging loses no fragment. -/
theorem mergeRanges_perm (before : List Chain) (parent : Chain) (after : List Chain) :
    (ringFrags (mergeRanges before parent after)).Perm
      (ringFrags before ++ (parent.frags ++ ringFrags after)) := by
  cases after with
  | cons next after =>
    simp only [mergeRanges]
    split <;> simp
  | nil =>
    cases before with
    | nil => rfl
    | cons head middle =>
      simp only [mergeRanges]
      split
      · simpa using @perm_append_comm _ parent.frags (head.frags ++ ringFrags middle)
      · simp

/-- An insertion, wherever it is made, adds the fragment and loses none. -/
theorem appendFrag_perm (frag : RecvFrag) (seq : Nat) (ring : List Chain) :
    (ringFrags (appendFragToOrderedList frag seq ring)).Perm (frag :: ringFrags ring) := by
  cases ring with
  | nil => rfl
  | cons head rest =>
    have place := found_split frag.hdrSeq head rest
    simp only [appendFragToOrderedList] at place ⊢
    generalize (if frag.hdrSeq < head.seq then _ else _) = found at place ⊢
    rw [← place, perm_iff_count]
    intro f
    -- Each of the three ways to put the fragment counts the same fragments.
    split
    · simp [(mergeRanges_perm _ _ _).count_eq, count_cons]
      omega
    · split
      · simp [(mergeRanges_perm _ _ _).count_eq, count_cons]
        omega
      · simp [(mergeRanges_perm _ _ _).count_eq, count_cons]
        omega

/-- A fragment numbered below a head it follows has rolled over. The search backwards then passes
the chains beyond it, whose distances shrink, and stops at the first that is not. -/
theorem searchBackward_within (d1 x : Nat) (mine : Near e frag) (first : Near e head.first)
    (rolled : frag.hdrSeq < head.seq) (under : head.first.num < frag.num)
    (near : ∀ c ∈ rest, Near e c.first ∧ head.first.num < c.first.num
      ∧ c.first.num ≠ frag.num) (firsts : rest.Pairwise fun a b => b.first.num < a.first.num)
    (beyond : ∀ c ∈ after, frag.num < c.first.num) (distance : d1 = x % 2 ^ 16 - frag.hdrSeq)
    (from_ : x = head.first.num ∨ (frag.num < x ∧ x < e + 2 ^ 15 ∧ ∀ c ∈ rest, c.first.num < x)) :
    let found := searchBackward frag.hdrSeq head d1 after rest
    found.parent.first.num < frag.num ∧ ∀ c ∈ found.after, frag.num < c.first.num := by
  -- By induction on the chains that are left, from the last one to the front.
  induction rest generalizing d1 x after with
  | nil => exact ⟨under, beyond⟩
  | cons prior rest ih =>
    obtain ⟨⟨priorSeq, priorLower, priorUpper⟩, later, apart⟩ := near prior mem_cons_self
    obtain ⟨mineSeq, mineLower, mineUpper⟩ := id mine
    obtain ⟨headSeq, headLower, headUpper⟩ := id first
    have reach : x = head.first.num ∨ (frag.num < x ∧ x < e + 2 ^ 15 ∧ prior.first.num < x) :=
      from_.imp_right fun ⟨above, bound, all⟩ => ⟨above, bound, all _ mem_cons_self⟩
    simp only [searchBackward]
    split
    · rename_i onward
      simp only [Chain.seq, seqDiff] at onward rolled
      have past : frag.num < prior.first.num := by omega
      obtain ⟨below, firsts⟩ := pairwise_cons.mp firsts
      refine ih _ (prior.first.num) (fun c mem => near c (mem_cons_of_mem _ mem)) firsts
        ?_ (by simp only [Chain.seq, seqDiff]; omega) (.inr ⟨past, priorUpper, below⟩)
      intro c mem
      rcases mem_cons.mp mem with rfl | mem
      · exact past
      · exact beyond c mem
    · rename_i stopped
      simp only [Chain.seq, seqDiff] at stopped rolled
      have under : prior.first.num < frag.num := by omega
      exact ⟨under, beyond⟩

/-- A fragment that comes before the head is placed at the end of the ring at once. -/
theorem searchBackward_ahead (mine : Near e frag) (first : Near e head.first)
    (below : frag.hdrSeq < head.seq) (past : frag.num < head.first.num)
    (near : ∀ c ∈ rest, Near e c.first ∧ head.first.num < c.first.num) :
    (searchBackward frag.hdrSeq head (seqDiff head.seq frag.hdrSeq) [] rest).after = [] := by
  cases rest with
  | nil => rfl
  | cons prior rest =>
    obtain ⟨⟨priorSeq, priorLower, priorUpper⟩, later⟩ := near prior mem_cons_self
    obtain ⟨mineSeq, mineLower, mineUpper⟩ := mine
    obtain ⟨headSeq, headLower, headUpper⟩ := first
    simp only [searchBackward]
    rw [if_neg (by simp only [Chain.seq, seqDiff] at below ⊢; omega)]

/-- Both searches find the place of a fragment that is not in the ring yet. -/
theorem Ordered.placed (ok : Ordered e (head :: rest)) (mine : Near e frag)
    (fresh : ∀ f ∈ ringFrags (head :: rest), f.num ≠ frag.num) :
    let found :=
      if frag.hdrSeq < head.seq then
        searchBackward frag.hdrSeq head (seqDiff head.seq frag.hdrSeq) [] rest.reverse
      else searchForward frag.hdrSeq head rest
    Placed frag head found := by
  have near : ∀ c ∈ head :: rest, Near e c.first := fun c => ok.near_first
  have apart : ∀ c ∈ head :: rest, c.first.num ≠ frag.num :=
    fun c mem => fresh _ (mem_ringFrags mem mem_cons_self)
  have firsts : (head :: rest).Pairwise fun a b => a.first.num < b.first.num :=
    ok.chains.imp (by omega)
  obtain ⟨above, later⟩ := pairwise_cons.mp firsts
  have first := near head mem_cons_self
  intro found
  -- A number below the head's is taken to have rolled over: the search is from the end.
  by_cases below : frag.hdrSeq < head.seq
  · simp only [found, if_pos below]
    have inner : ∀ c ∈ rest.reverse, Near e c.first ∧ head.first.num < c.first.num
        ∧ c.first.num ≠ frag.num := by
      intro c mem
      have mem := mem_reverse.mp mem
      exact ⟨near c (mem_cons_of_mem _ mem), above c mem, apart c (mem_cons_of_mem _ mem)⟩
    refine ⟨fun under => ?_, fun past => searchBackward_ahead mine first below past
      fun c mem => ⟨(inner c mem).1, (inner c mem).2.1⟩⟩
    refine searchBackward_within _ (head.first.num) mine first below under inner
      (pairwise_reverse.mpr later) (by simp) ?_ (.inl rfl)
    obtain ⟨headSeq, _, _⟩ := first
    simp only [Chain.seq, seqDiff] at below ⊢
    omega
  · simp only [found, if_neg below]
    refine searchForward_placed mine near firsts apart ?_
    have other := apart head mem_cons_self
    obtain ⟨mineSeq, mineLower, mineUpper⟩ := mine
    obtain ⟨headSeq, headLower, headUpper⟩ := first
    simp only [Chain.seq] at below ⊢
    omega

/-- A ring of the same fragments is ordered as soon as its chains are runs. -/
theorem Ordered.regroup (ok : Ordered e ring) {other : List Chain}
    (same : ringFrags other = ringFrags ring) (runs : ∀ c ∈ other, c.Run) : Ordered e other :=
  ⟨same ▸ ok.near, runs, same ▸ ok.ascending⟩

/-- A chain that carries on another's numbers makes one run with it. -/
theorem Chain.join_run {d : Chain} (run : c.Run) (next : d.Run)
    (follows : d.first.num = c.first.num + c.frags.length) :
    (c.join d.frags).frags.map RecvFrag.num
      = List.range' ((c.join d.frags).first.num) (c.join d.frags).frags.length := by
  rw [frags_join, map_append, run, next, follows, length_append]
  exact List.range'_append_1

/-- Merging a chain with the one after it leaves the fragments in order. -/
theorem Ordered.mergeRanges {parent : Chain} (ok : Ordered e (before ++ parent :: after)) :
    Ordered e (mergeRanges before parent after) := by
  have upper := ok.upper_eq (c := parent) (by simp)
  cases after with
  | nil =>
    cases before with
    | nil => exact ok
    | cons head middle =>
      -- The head is far behind the last chain, so it never carries on its numbers.
      have first := ok.near_first (c := head) (by simp)
      have below := (pairwise_cons.mp ok.chains).1 parent (by simp)
      have apart : ¬ parent.upper + 1 = head.seq := by
        rw [Chain.seq, first.seq]
        have lower := first.lower
        omega
      simpa only [Ob1.mergeRanges, if_neg apart] using ok
  | cons next after =>
    simp only [Ob1.mergeRanges]
    split
    · -- The two chains meet: their fragments are one run.
      rename_i meets
      have near := ok.near_first (c := next) (by simp)
      have below := (pairwise_cons.mp (pairwise_append.mp ok.chains).2.1).1 next (by simp)
      have follows : next.first.num = parent.first.num + parent.frags.length := by
        rw [Chain.seq, near.seq] at meets
        have bound := near.upper
        have lower := (ok.near_first (c := parent) (by simp)).lower
        simp only [frags, length_cons]
        omega
      refine ok.regroup (by simp) fun c mem => ?_
      rcases mem_append.mp mem with old | mem
      · exact ok.runs c (by simp [old])
      · rcases mem_cons.mp mem with rfl | old
        · exact join_run (ok.runs parent (by simp)) (ok.runs next (by simp)) follows
        · exact ok.runs c (by simp [old])
    · exact ok

/-- A fragment between the two parts of a ring may stand there, in a chain of its own or not. -/
theorem Ordered.insert (ok : Ordered e (before ++ after)) (mine : Near e frag)
    (below : ∀ f ∈ ringFrags before, f.num < frag.num)
    (above : ∀ f ∈ ringFrags after, frag.num < f.num) (same : ringFrags ring
      = ringFrags before ++ frag :: ringFrags after)
    (runs : ∀ c ∈ ring, c ∈ before ++ after ∨ c.Run) :
    Ordered e ring := by
  have parts := pairwise_append.mp (ringFrags_append ▸ ok.ascending)
  refine ⟨fun f mem => ?_, fun c mem => (runs c mem).elim (ok.runs c) id, ?_⟩
  · have cases_ : f = frag ∨ f ∈ ringFrags (before ++ after) := by
      rw [same] at mem
      simp only [ringFrags_append, mem_append, mem_cons] at mem ⊢
      exact or_left_comm.mp mem
    exact cases_.elim (fun here => here ▸ mine) (ok.near f)
  · rw [same]
    refine pairwise_append.mpr
      ⟨parts.1, pairwise_cons.mpr ⟨above, parts.2.1⟩, fun f early g late => ?_⟩
    rcases mem_cons.mp late with rfl | late
    · exact below f early
    · exact parts.2.2 f early g late

/-- A fragment that should become the head of a ring of rolled-over numbers meets the old head,
or there is no such ring. -/
def HeadFits (frag : RecvFrag) (seq : Nat) : List Chain → Prop
  | [] => True
  | head :: _ => frag.hdrSeq < head.seq → head.seq < seq → head.seq = frag.hdrSeq + 1

instance (frag : RecvFrag) (seq : Nat) : (ring : List Chain) → Decidable (HeadFits frag seq ring)
  | [] => isTrue trivial
  | head :: _ => inferInstanceAs
      (Decidable (frag.hdrSeq < head.seq → head.seq < seq → head.seq = frag.hdrSeq + 1))

/-- Behind a head that comes first, a fragment is put where it belongs. -/
theorem Ordered.append_within {parent : Chain} (ok : Ordered e (before ++ parent :: after))
    (mine : Near e frag)
    (fresh : ∀ f ∈ ringFrags (before ++ parent :: after), f.num ≠ frag.num)
    (under : parent.first.num < frag.num) (past : ∀ c ∈ after, frag.num < c.first.num) :
    (parent.upper + 1 = frag.hdrSeq → Ordered e (before ++ parent.join [frag] :: after))
      ∧ Ordered e (before ++ [parent] ++ ⟨frag, []⟩ :: after) := by
  have whole : Ordered e (before ++ [parent] ++ after) := by simpa using ok
  have beyond := ok.beyond (c := parent) (by simp) fresh under
  -- Chains do not overlap, so that all fragments before the place have smaller numbers.
  have below : ∀ f ∈ ringFrags (before ++ [parent]), f.num < frag.num := by
    intro f mem
    obtain ⟨c, mem, own⟩ := mem_flatMap.mp mem
    rcases mem_append.mp mem with early | last
    · have run := ok.mem_run (c := c) (by simp [early]) own
      have apart := (pairwise_append.mp ok.chains).2.2 c early parent mem_cons_self
      omega
    · cases mem_singleton.mp last
      have run := ok.mem_run (c := parent) (by simp) own
      omega
  have above : ∀ f ∈ ringFrags after, frag.num < f.num := by
    intro f mem
    obtain ⟨c, mem, own⟩ := mem_flatMap.mp mem
    exact Nat.lt_of_lt_of_le (past c mem) (ok.mem_run (c := c) (by simp [mem]) own).1
  refine ⟨fun meets => whole.insert mine below above (by simp) fun c mem => ?_,
    whole.insert mine below above (by simp) fun c mem => ?_⟩
  · rcases mem_append.mp mem with old | mem
    · exact .inl (by simp [old])
    rcases mem_cons.mp mem with rfl | old
    · have upper := ok.upper_eq (c := parent) (by simp)
      have follows : frag.num = parent.first.num + parent.frags.length := by
        rw [mine.seq] at meets
        have bound := mine.upper
        have lower := (ok.near_first (c := parent) (by simp)).lower
        simp only [frags, length_cons]
        omega
      exact .inr (join_run (d := ⟨frag, []⟩) (ok.runs parent (by simp)) rfl follows)
    · exact .inl (by simp [old])
  · rcases mem_append.mp mem with old | mem
    · exact .inl (mem_append_left _ old)
    rcases mem_cons.mp mem with rfl | old
    · exact .inr rfl
    · exact .inl (mem_append_right _ old)

/-- An insertion that fits keeps the ring ordered. -/
theorem Ordered.appendFrag (ok : Ordered e ring) (mine : Near e frag)
    (fresh : ∀ f ∈ ringFrags ring, f.num ≠ frag.num) (fits : HeadFits frag (e % 2 ^ 16) ring) :
    Ordered e (appendFragToOrderedList frag (e % 2 ^ 16) ring) := by
  cases ring with
  | nil =>
    exact (show Ordered e ([] ++ []) from ok).insert mine (by simp) (by simp) rfl
      fun c mem => .inr (by cases mem_singleton.mp mem; rfl)
  | cons head rest =>
    have split_ := found_split frag.hdrSeq head rest
    have placed := ok.placed mine fresh
    have first := ok.near_first (c := head) mem_cons_self
    have apart := fresh head.first (by simp [frags])
    simp only [appendFragToOrderedList] at split_ ⊢
    generalize (if frag.hdrSeq < head.seq then _ else _) = found at split_ placed ⊢
    obtain ⟨before, parent, after⟩ := found
    simp only at split_ placed ⊢
    obtain ⟨mineSeq, mineLower, mineUpper⟩ := id mine
    obtain ⟨headSeq, headLower, headUpper⟩ := id first
    have whole : Ordered e (before ++ parent :: after) := split_ ▸ ok
    -- Behind the head the place found is right; before it the fragment may become the head.
    by_cases order : head.first.num < frag.num
    · obtain ⟨under, past⟩ := placed.within order
      have within := whole.append_within mine (split_ ▸ fresh) under past
      by_cases meets : parent.upper + 1 = frag.hdrSeq
      · rw [if_pos meets]
        exact (within.1 meets).mergeRanges
      · -- The head is nearer to the expected number, so it stays.
        rw [if_neg meets, if_neg (by simp only [Chain.seq, seqAbs]; omega)]
        exact within.2.mergeRanges
    · cases placed.ahead (by omega)
      have front : Ordered e ([] ++ ⟨frag, []⟩ :: head :: rest) := by
        refine (show Ordered e ([] ++ head :: rest) from ok).insert mine (by simp) ?_ rfl ?_
        · intro f mem
          have ahead := (pairwise_cons.mp ok.ascending).1
          rcases mem_cons.mp mem with rfl | mem
          · omega
          · exact Nat.lt_trans (by omega) (ahead f mem)
        · intro c mem
          rcases mem_cons.mp mem with rfl | mem
          · exact .inr rfl
          · exact .inl mem
      have upper := whole.upper_eq (c := parent) (by simp)
      have last : head.first.num ≤ parent.first.num := by
        have mem : parent ∈ head :: rest := split_ ▸ by simp
        rcases mem_cons.mp mem with rfl | mem
        · exact Nat.le_refl _
        · have := (pairwise_cons.mp ok.chains).1 parent mem
          omega
      rw [if_neg (by omega), split_]
      split
      · exact front.mergeRanges
      rename_i stays
      -- A rolled-over fragment is not made the head, unless the old head joins its chain.
      have meets : head.seq = frag.hdrSeq + 1 := by
        apply fits <;> simp only [Chain.seq, seqAbs] at stays ⊢ <;> omega
      simpa only [Ob1.mergeRanges, Chain.upper, getLastD_nil, meets, if_true,
        nil_append] using front.mergeRanges

end EduMpi.Ob1
