import EduMpi.Lib.Run
import EduMpi.Pml.Ob1InOrder

/-! A communicator on which overtaking is allowed during a run: what sender and receiver count,
and what is handed to matching as long as they count the same messages. -/

namespace EduMpi.Ob1

open Machine List

/-- The out-of-sequence fragments are to be matched as if they arrived now; but a process that
has any is passed over. -/
def CommProc.mergeCantMatch (p : CommProc) : CommProc :=
  if p.fragsCantMatch ≠ [] then p
  else (ringFrags p.fragsCantMatch).foldl (fun p frag => p.recvFragMatchProc frag)
    { p with fragsCantMatch := [] }

theorem CommProc.mergeCantMatch_of_empty {p : CommProc} (empty : p.fragsCantMatch = []) :
    p.mergeCantMatch = p := by
  cases p
  cases empty
  rfl

/-- One sender and its receiver on a communicator. A message without a number has number 0. -/
structure Channel where
  sendOvertake : Bool
  sendSequence : Nat
  sent : List RecvFrag
  flying : List RecvFrag
  recvOvertake : Bool
  proc : CommProc
  /-- What was still queued when the receiver had allowed overtaking. -/
  left : List RecvFrag

/-- Both sides of a new communicator. -/
def Channel.initial : Channel := ⟨false, 0, [], [], false, ⟨1, [], []⟩, []⟩

inductive ChannelAction where
  | send (persistent : Bool) (hdrType : HdrType) (tag : Int)
  | senderAllows
  | receiverAllows
  | arrive (frag : RecvFrag)

namespace Channel

/-- A persistent send takes a number always, another one unless its message may be overtaken. -/
def send (persistent : Bool) (hdrType : HdrType) (tag : Int) (s : Channel) : Channel :=
  let counted := persistent = true ∨ s.sendOvertake = false ∨ tag < 0
  let seqn := if counted then s.sendSequence + 1 else 0
  let frag := ⟨seqn, hdrType, tag, seqn % 2 ^ 16⟩
  { s with
    sendSequence := if counted then s.sendSequence + 1 else s.sendSequence
    sent := s.sent ++ [frag]
    flying := frag :: s.flying }

/-- The receiver sets the flag and merges what is queued, unless the flag was set. -/
def setAllowOvertake (s : Channel) : Channel :=
  if s.recvOvertake then s
  else
    let proc := s.proc.mergeCantMatch
    { s with recvOvertake := true, proc := proc, left := ringFrags proc.fragsCantMatch }

def step (s : Channel) : ChannelAction → Option Channel
  | .send persistent hdrType tag => some (s.send persistent hdrType tag)
  | .senderAllows => some { s with sendOvertake := true }
  | .receiverAllows => some s.setAllowOvertake
  | .arrive frag =>
    if frag ∈ s.flying then
      some { s with
        flying := s.flying.erase frag
        proc := s.proc.arrive s.recvOvertake frag }
    else none

/-- The numbered messages handed over, of which the next is expected. -/
def handed (s : Channel) : List RecvFrag := s.proc.matched.filter (·.num ≠ 0)

/-- The two sides agree on what an arriving message counts for, it is an eager one if it does not
count, and near enough and fit for the queue if it does. Nothing is queued at the switch. -/
def Agrees (s : Channel) : ChannelAction → Prop
  | .receiverAllows => s.recvOvertake = false → s.proc.fragsCantMatch = []
  | .arrive frag =>
    if s.recvOvertake = false ∨ frag.hdrTag < 0 then
      frag.num ≠ 0 ∧ frag.num < 1 + s.handed.length + 2 ^ 15
        ∧ HeadFits frag s.proc.expectedSequence s.proc.fragsCantMatch
    else frag.num = 0 ∧ frag.hdrType = .match
  | _ => True

instance (s : Channel) : (a : ChannelAction) → Decidable (s.Agrees a)
  | .receiverAllows => inferInstanceAs (Decidable (_ → _))
  | .arrive _ => inferInstanceAs (Decidable (ite _ _ _))
  | .send .. | .senderAllows => isTrue trivial

/-- Sender and receiver have counted the same messages, and nothing got lost between them. -/
structure Inv (s : Channel) : Prop where
  expects : Expects (1 + s.handed.length) s.proc
  drained : Drained (1 + s.handed.length) s.proc
  inOrder : s.handed.map RecvFrag.num = range' 1 s.handed.length
  kept : (s.proc.matched ++ (ringFrags s.proc.fragsCantMatch ++ s.flying)).Perm s.sent
  counted : (s.sent.filter (·.num ≠ 0)).map RecvFrag.num = range' 1 s.sendSequence
  numbered : ∀ f ∈ s.sent, f.hdrSeq = f.num % 2 ^ 16 ∧ (f.hdrTag < 0 → f.num ≠ 0)
  merged : s.left = []

variable {s t : Channel} {frag f : RecvFrag}

theorem Inv.send (inv : Inv s) (persistent : Bool) (hdrType : HdrType) (tag : Int) :
    Inv (s.send persistent hdrType tag) := by
  obtain ⟨expects, drained, inOrder, kept, counted, numbered, merged⟩ := inv
  refine ⟨expects, drained, inOrder, ?_, ?_, ?_, merged⟩
  · simp only [← append_assoc] at kept ⊢
    exact perm_middle.trans ((kept.cons _).trans (perm_append_singleton ..).symm)
  · simp only [Channel.send, filter_append, map_append, counted]
    split <;> simp [range'_concat, Nat.add_comm]
  · intro f mem
    rcases mem_append.mp mem with old | new
    · exact numbered f old
    · cases mem_singleton.mp new
      refine ⟨rfl, fun internal => ?_⟩
      simp [show tag < 0 from internal]

/-- No number is handed over, queued or flying twice. -/
theorem Inv.nodup (inv : Inv s) : ((s.proc.matched ++ (ringFrags s.proc.fragsCantMatch
    ++ s.flying)).filter (·.num ≠ 0)).Pairwise fun f g => f.num ≠ g.num := by
  have once : ((s.sent.filter (·.num ≠ 0)).map RecvFrag.num).Nodup := inv.counted ▸ nodup_range'
  exact pairwise_map.mp ((inv.kept.filter _).map _ |>.nodup_iff.mpr once)

section

variable (inv : Inv s) (flies : frag ∈ s.flying)

include inv flies

/-- An arrival that hands over the next numbered messages, and others, keeps the invariant. -/
theorem Inv.handOver {taken counting : List RecvFrag} {p : CommProc}
    (matched : p.matched = s.proc.matched ++ taken)
    (moved : (taken ++ ringFrags p.fragsCantMatch).Perm (frag :: ringFrags s.proc.fragsCantMatch))
    (counts : taken.filter (·.num ≠ 0) = counting)
    (next : counting.map RecvFrag.num = range' (1 + s.handed.length) counting.length)
    (expects : Expects (1 + s.handed.length + counting.length) p)
    (drained : Drained (1 + s.handed.length + counting.length) p) :
    Inv { s with flying := s.flying.erase frag, proc := p } := by
  have handed : Channel.handed { s with flying := s.flying.erase frag, proc := p }
      = s.handed ++ counting := by
    rw [Channel.handed, matched, filter_append, counts]
    rfl
  refine ⟨?_, ?_, ?_, ?_, inv.counted, inv.numbered, inv.merged⟩
  · rw [handed, length_append, ← Nat.add_assoc]
    exact expects
  · rw [handed, length_append, ← Nat.add_assoc]
    exact drained
  · rw [handed, map_append, inv.inOrder, next, length_append]
    exact range'_append_1
  · refine Perm.trans ?_ inv.kept
    simp only [matched, append_assoc]
    refine Perm.append_left _ ?_
    rw [← append_assoc]
    exact (moved.append_right _).trans
      (perm_middle.symm.trans ((perm_cons_erase flies).symm.append_left _))

/-- A message that counts for both sides is the expected one or waits for it. -/
theorem Inv.arrive_counted (inSequence : s.recvOvertake = false ∨ frag.hdrTag < 0)
    (counts : frag.num ≠ 0) (near : frag.num < 1 + s.handed.length + 2 ^ 15)
    (fits : HeadFits frag s.proc.expectedSequence s.proc.fragsCantMatch) :
    Inv { s with flying := s.flying.erase frag, proc := s.proc.arrive s.recvOvertake frag } := by
  have apart : ∀ f ∈ s.proc.matched ++ ringFrags s.proc.fragsCantMatch, f.num ≠ frag.num := by
    intro f mem same
    have once := inv.nodup
    rw [← append_assoc, filter_append] at once
    exact (pairwise_append.mp once).2.2 f (mem_filter.mpr ⟨mem, by simp [same, counts]⟩) frag
      (mem_filter.mpr ⟨flies, by simp [counts]⟩) same
  have lower : 1 + s.handed.length ≤ frag.num := by
    by_contra below
    have listed : frag.num ∈ s.handed.map RecvFrag.num := by
      rw [inv.inOrder, mem_range'_1]
      omega
    obtain ⟨f, mem, same⟩ := mem_map.mp listed
    exact apart f (mem_append_left _ (mem_filter.mp mem).1) same
  have seq := (inv.numbered frag (inv.kept.subset (by simp [flies]))).1
  obtain ⟨taken, expects, drained, matched, next, moved⟩ := inv.expects.arrive inv.drained
    ⟨seq, lower, near⟩ (fun f mem => apart f (mem_append_right _ mem)) fits inSequence
  -- Everything handed over counts, since it is at least the expected number.
  have all : taken.filter (·.num ≠ 0) = taken := by
    refine filter_eq_self.mpr fun f mem => decide_eq_true ?_
    have listed := mem_map_of_mem (f := RecvFrag.num) mem
    rw [next, mem_range'_1] at listed
    omega
  exact inv.handOver flies matched moved all next expects drained

/-- A message that counts for neither side is handed over at once, and frees nothing. -/
theorem Inv.arrive_uncounted (overtakes : ¬(s.recvOvertake = false ∨ frag.hdrTag < 0))
    (free : frag.num = 0) (eager : frag.hdrType = .match) :
    Inv { s with flying := s.flying.erase frag, proc := s.proc.arrive s.recvOvertake frag } := by
  have same : s.proc.arrive s.recvOvertake frag = (s.proc.matchOne frag).matchCantMatch := by
    rw [CommProc.arrive, if_pos eager, CommProc.recvFragCallbackMatch, if_neg overtakes]
  rw [same]
  have waits : Expects (1 + s.handed.length) (s.proc.matchOne frag) :=
    { inv.expects with }
  obtain ⟨taken, expects, drained, matched, next, moved⟩ := waits.matchQueued _ (Nat.le_refl _)
  cases taken with
  | nil =>
    exact inv.handOver flies (matched.trans (append_nil _)) (moved.cons frag)
      (by simp [free]) next expects drained
  | cons f taken =>
    -- The expected message is not queued.
    rw [length_cons, range'_succ, map_cons, cons.injEq] at next
    exact absurd next.1 (inv.drained f (moved.subset mem_cons_self))

end

theorem inv_step (s : Channel) (a : ChannelAction) (t : Channel) (inv : Inv s) (agrees : s.Agrees a)
    (taken : s.step a = some t) : Inv t := by
  cases a with
  | send persistent hdrType tag =>
    cases taken
    exact inv.send persistent hdrType tag
  | senderAllows =>
    cases taken
    exact { inv with }
  | receiverAllows =>
    cases taken
    unfold setAllowOvertake
    split
    · exact inv
    · rename_i off
      have empty := agrees (by simpa using off)
      rw [CommProc.mergeCantMatch_of_empty empty]
      exact { inv with merged := by simp [empty] }
  | arrive frag =>
    simp only [step, Option.ite_none_right_eq_some, Option.some.injEq] at taken
    obtain ⟨flies, rfl⟩ := taken
    simp only [Agrees] at agrees
    split at agrees
    · rename_i inSequence
      exact inv.arrive_counted flies inSequence agrees.1 agrees.2.1 agrees.2.2
    · rename_i overtakes
      exact inv.arrive_uncounted flies overtakes agrees.1 agrees.2

/-- Where the numbers ascend from 1 and internal messages have one, those are in number order. -/
theorem internal_ascending {l : List RecvFrag} {n : Nat}
    (counted : (l.filter (·.num ≠ 0)).map RecvFrag.num = range' 1 n)
    (internal : ∀ f ∈ l, f.hdrTag < 0 → f.num ≠ 0) :
    (l.filter (·.hdrTag < 0)).Pairwise fun f g => f.num < g.num := by
  have all : l.filter (·.hdrTag < 0) = (l.filter (·.num ≠ 0)).filter (·.hdrTag < 0) := by
    rw [filter_filter]
    refine filter_congr fun f mem => ?_
    simpa using internal f mem
  rw [all]
  exact (pairwise_map.mp (counted ▸ pairwise_lt_range')).filter _

/-- As long as nothing is flying, nothing is queued. -/
theorem Inv.queue_empty (inv : Inv s) (landed : s.flying = []) :
    ringFrags s.proc.fragsCantMatch = [] := by
  refine eq_nil_iff_forall_not_mem.mpr fun f queued => ?_
  have kept := inv.kept
  rw [landed, append_nil] at kept
  -- A queued message is sent after the expected one, which has then arrived as well.
  have beyond := (inv.expects.ordered.near f queued).lower
  have among : ∀ i, i ∈ range' 1 s.sendSequence ↔ ∃ g ∈ s.sent, g.num ≠ 0 ∧ g.num = i := by
    simp [← inv.counted, and_assoc]
  have last := (among f.num).mpr ⟨f, kept.subset (by simp [queued]), by omega, rfl⟩
  obtain ⟨g, sent, counts, same⟩ := (among (1 + s.handed.length)).mp (by
    rw [mem_range'_1] at last ⊢
    omega)
  rcases mem_append.mp (kept.mem_iff.mpr sent) with handed | waits
  · have listed := mem_map_of_mem (f := RecvFrag.num)
      (show g ∈ s.handed from mem_filter.mpr ⟨handed, by simp [counts]⟩)
    rw [inv.inOrder, mem_range'_1] at listed
    omega
  · exact inv.drained g waits same

/-- In every run in which the two sides agree, every message is handed over once all have
arrived, internal messages are handed over in sending order, and the switch leaves none queued. -/
theorem overtaking_loses_nothing (actions : List ChannelAction) (s : Channel)
    (ran : exec step initial actions = some s) (agree : Along step Agrees initial actions) :
    (s.flying = [] → s.proc.matched.Perm s.sent)
      ∧ (s.proc.matched.filter (·.hdrTag < 0)).Pairwise (fun f g => f.num < g.num)
      ∧ (s.sent.filter (·.hdrTag < 0)).Pairwise (fun f g => f.num < g.num) ∧ s.left = [] := by
  have start : Inv initial := ⟨⟨rfl, by simp [initial], by simp [initial], by simp [initial]⟩,
    by simp [Drained, initial], rfl, by simp [initial], rfl, by simp [initial], rfl⟩
  have inv : Inv s := exec_keeps_along inv_step start agree ran
  refine ⟨fun landed => ?_, internal_ascending inv.inOrder fun f mem => ?_,
    internal_ascending inv.counted fun f mem => (inv.numbered f mem).2, inv.merged⟩
  · simpa [landed, inv.queue_empty landed] using inv.kept
  · exact (inv.numbered f (inv.kept.subset (by simp [mem]))).2

/-- A user message without a number may overtake an internal one. -/
theorem user_overtakes_internal :
    let actions : List ChannelAction := [.senderAllows, .receiverAllows, .send false .match (-2),
      .send false .match 3, .arrive ⟨0, .match, 3, 0⟩, .arrive ⟨1, .match, -2, 1⟩]
    ∃ s, exec step initial actions = some s ∧ s.proc.matched.map RecvFrag.hdrTag = [3, -2]
      ∧ s.proc.matched.Perm s.sent := by
  intro actions
  refine reaches_of_decide (P := fun s => s.flying = []
    ∧ s.proc.matched.map RecvFrag.hdrTag = [3, -2]) (by decide) fun s ran ⟨landed, order⟩ => ?_
  exact ⟨order, (overtaking_loses_nothing actions s ran (by decide)).1 landed⟩

/-- A user message that waits for another one when overtaking is allowed is not merged, and
waits for ever, since the other one does not count any more. -/
theorem queued_before_switch_stays :
    ∃ s, exec step initial [.send false .match 3, .send false .match 3, .arrive ⟨2, .match, 3, 2⟩,
        .senderAllows, .receiverAllows, .arrive ⟨1, .match, 3, 1⟩] = some s
      ∧ s.flying = [] ∧ s.left = [⟨2, .match, 3, 2⟩]
      ∧ ringFrags s.proc.fragsCantMatch = [⟨2, .match, 3, 2⟩] :=
  ⟨_, rfl, by decide, by decide, by decide⟩

end Channel

end EduMpi.Ob1
