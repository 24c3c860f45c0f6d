import Mathlib.Data.List.Nodup
import EduMpi.Pml.Ob1OrderLaws

/-! The fragments that arrived before their communicator existed, when the communicator is added. -/

namespace EduMpi.Ob1

open List CommProc

/-- An extended communicator id. -/
structure ExtendedCid where
  cidBase : Nat
  cidSub : Nat
deriving DecidableEq, Repr

/-- The header that matching goes by. -/
structure MatchHdr where
  hdrType : HdrType
  hdrCtx : Nat
  hdrSrc : Int
  hdrTag : Int
  hdrSeq : Nat
deriving DecidableEq, Repr

/-- A fragment whose communicator did not exist when it arrived: the whole number of its message,
and the match header its sender wrote, plain or behind a header with the extended id. -/
structure PendingFrag where
  num : Nat
  hdrCid : Option ExtendedCid
  hdrMatch : MatchHdr
deriving DecidableEq, Repr

/-- What matching reads of a communicator. -/
structure Communicator where
  cIndex : Nat
  cContextid : ExtendedCid
  allowOvertake : Bool
deriving DecidableEq, Repr

/-- The fragments without a communicator, and what the new one keeps for each of its processes. -/
structure Pml where
  nonExistingCommunicatorPending : List PendingFrag
  procs : Int → CommProc

namespace PendingFrag

/-- Whether the fragment belongs to the communicator, by its extended id or else by its index. -/
def isFor (comm : Communicator) (f : PendingFrag) : Bool :=
  match f.hdrCid with
  | some cid => cid = comm.cContextid
  | none => f.hdrMatch.hdrCtx = comm.cIndex

/-- The fragment under the tag and the number its sender gave it. -/
def sent (f : PendingFrag) : RecvFrag :=
  ⟨f.num, f.hdrMatch.hdrType, f.hdrMatch.hdrTag, f.hdrMatch.hdrSeq⟩

/-- The fragment as the lists of a process show it. They take the tag and the number from where a
plain match header has them; the extended id is there if it comes first, and `overlay` says what
the compiler's layout lets one read of it. -/
def listed (overlay : ExtendedCid → Int × Nat) (f : PendingFrag) : RecvFrag :=
  match f.hdrCid with
  | some cid => { f.sent with hdrTag := (overlay cid).1, hdrSeq := (overlay cid).2 }
  | none => f.sent

end PendingFrag

/-- A process of a new communicator. No receive is posted there yet, so the fragments handed to
matching are those of the unexpected list. -/
def CommProc.new : CommProc := ⟨1, [], []⟩

variable (overlay : ExtendedCid → Int × Nat) (comm : Communicator) {f : PendingFrag}

/-- Moves a pending fragment to the unexpected list or to the out-of-sequence queue. -/
def CommProc.addPending (f : PendingFrag) (p : CommProc) : CommProc :=
  if comm.allowOvertake then p.matchOne (f.listed overlay)
  else if f.hdrMatch.hdrSeq = p.expectedSequence then p.recvFragMatchProc (f.listed overlay)
  else p.queueFrag (f.listed overlay)

/-- One round of the loop over the pending fragments. -/
def takePending (s : Pml) (f : PendingFrag) : Pml :=
  if f.isFor comm then
    { s with
      procs := fun src =>
        if src = f.hdrMatch.hdrSrc then (s.procs src).addPending overlay comm f
        else s.procs src }
  else
    { s with nonExistingCommunicatorPending := s.nonExistingCommunicatorPending ++ [f] }

/-- Adds a communicator, unless its index is out of range. -/
def addComm (pmlMaxContextid : Nat) (pending : List PendingFrag) : Option Pml :=
  if pmlMaxContextid < comm.cIndex then none
  else some (pending.foldl (takePending overlay comm) ⟨[], fun _ => .new⟩)

/-- The pending fragments that a process of the communicator has sent, in order of arrival. -/
def ofSender (src : Int) (pending : List PendingFrag) : List PendingFrag :=
  pending.filter fun f => f.isFor comm ∧ f.hdrMatch.hdrSrc = src

/-- The numbers of the first messages of a sender. -/
def firstNumbers (count : Nat) : List Nat := (List.range' 1 count).map (· % 2 ^ 16)

/-- The pending fragments of a communicator have all moved to the lists of their senders. There
they stand under the tag and the number they were sent with, those in the unexpected list in
sending order from the first expected number on. No other fragment has moved. -/
structure Moved (pending : List PendingFrag) (s : Pml) : Prop where
  others : s.nonExistingCommunicatorPending = pending.filter fun f => !f.isFor comm
  sits : ∀ src, ((s.procs src).matched ++ ringFrags (s.procs src).fragsCantMatch).Perm
    ((ofSender comm src pending).map PendingFrag.sent)
  inOrder : ∀ src, (s.procs src).matched.map RecvFrag.hdrSeq
    = firstNumbers (s.procs src).matched.length

variable {overlay comm} {p : CommProc} {frag : RecvFrag} {src : Int} {pending : List PendingFrag}

/-- The loop treats the fragments of each sender on their own. -/
theorem foldl_takePending (pending : List PendingFrag) (src : Int) (s : Pml) :
    (pending.foldl (takePending overlay comm) s).nonExistingCommunicatorPending
        = s.nonExistingCommunicatorPending ++ pending.filter (fun f => !f.isFor comm)
      ∧ (pending.foldl (takePending overlay comm) s).procs src
        = (ofSender comm src pending).foldl (fun p f => p.addPending overlay comm f)
          (s.procs src) := by
  induction pending generalizing s with
  | nil => simp [ofSender]
  | cons f pending ih =>
    simp only [foldl_cons, ih, ofSender, takePending]
    by_cases mine : f.isFor comm = true
    · rcases eq_or_ne src f.hdrMatch.hdrSrc with rfl | other
      · simp [mine]
      · simp [mine, other, other.symm]
    · simp [mine]

theorem addComm_some {pmlMaxContextid : Nat} {s : Pml}
    (added : addComm overlay comm pmlMaxContextid pending = some s) :
    s.nonExistingCommunicatorPending = pending.filter (fun f => !f.isFor comm)
      ∧ ∀ src, s.procs src
        = (ofSender comm src pending).foldl (fun p f => p.addPending overlay comm f) .new := by
  obtain ⟨_, ⟨⟩⟩ := Option.ite_none_left_eq_some.mp added
  exact ⟨(foldl_takePending pending 0 _).1, fun src => (foldl_takePending pending src _).2⟩

/-- The fragment taken off the queue is its head, and it is the expected one. -/
theorem checkCantmatchForMatch_some {q : CommProc}
    (taken : p.checkCantmatchForMatch = some (frag, q)) :
    ∃ rest, ringFrags p.fragsCantMatch = frag :: ringFrags rest
      ∧ frag.hdrSeq = p.expectedSequence ∧ q = { p with fragsCantMatch := rest } := by
  obtain ⟨expected, ring, matched⟩ := p
  rcases ring with _ | ⟨⟨first, _ | ⟨second, range⟩⟩, rest⟩
  · cases taken
  · obtain ⟨turn, ⟨⟩⟩ := Option.ite_none_right_eq_some.mp taken
    exact ⟨rest, rfl, turn, rfl⟩
  · obtain ⟨turn, ⟨⟩⟩ := Option.ite_none_right_eq_some.mp taken
    exact ⟨⟨second, range⟩ :: rest, rfl, turn, rfl⟩

/-- What handing over the expected head of the queue keeps, the loop over the queue keeps. -/
theorem matchQueued_keeps {motive : CommProc → Prop}
    (step : ∀ p frag rest, ringFrags p.fragsCantMatch = frag :: ringFrags rest →
      frag.hdrSeq = p.expectedSequence → motive p →
      motive (matchThisFrag frag { p with fragsCantMatch := rest }))
    (queued : Nat) (p : CommProc) (holds : motive p) : motive (p.matchQueued queued) := by
  induction queued generalizing p with
  | zero => exact holds
  | succ queued ih =>
    simp only [matchQueued]
    split
    · exact holds
    · rename_i frag rest taken
      obtain ⟨ring, head, turn, rfl⟩ := checkCantmatchForMatch_some taken
      exact ih _ (step p frag ring head turn holds)

/-- No fragment that was handed over or queued is lost, and a new one is added. -/
theorem addPending_perm (f : PendingFrag) :
    ((p.addPending overlay comm f).matched
        ++ ringFrags (p.addPending overlay comm f).fragsCantMatch).Perm
      (f.listed overlay :: (p.matched ++ ringFrags p.fragsCantMatch)) := by
  rw [addPending]
  split
  · simp [matchOne]
  split
  · refine matchQueued_keeps (motive := fun q => (q.matched ++ ringFrags q.fragsCantMatch).Perm
      (f.listed overlay :: (p.matched ++ ringFrags p.fragsCantMatch))) ?_ _ _ ?_
    · intro q frag rest head _ kept
      simpa [matchThisFrag, matchOne, head] using kept
    · simp [matchThisFrag, matchOne]
  · exact ((appendFrag_perm _ _ _).append_left _).trans perm_middle

/-- What was handed over is numbered from the first message on, and the next is expected. -/
def Counted (p : CommProc) : Prop :=
  p.matched.map RecvFrag.hdrSeq = firstNumbers p.matched.length
    ∧ p.expectedSequence = (1 + p.matched.length) % 2 ^ 16

theorem Counted.matchThisFrag (counted : Counted p) (turn : frag.hdrSeq = p.expectedSequence)
    (rest : List Chain) : Counted (matchThisFrag frag { p with fragsCantMatch := rest }) := by
  obtain ⟨numbers, expected⟩ := counted
  constructor
  · simp [CommProc.matchThisFrag, matchOne, numbers, turn, expected, firstNumbers, range'_concat]
  · simp [CommProc.matchThisFrag, matchOne, expected, Nat.add_assoc]

/-- A fragment that shows its own number is handed over only in its turn. -/
theorem Counted.addPending (counted : Counted p) (ordered : comm.allowOvertake = false)
    (shows : f.listed overlay = f.sent) :
    Counted (p.addPending overlay comm f) := by
  rw [CommProc.addPending, if_neg (by simp [ordered]), shows]
  split
  · rename_i turn
    exact matchQueued_keeps (fun q frag rest _ turn counted => counted.matchThisFrag turn rest) _ _
      (counted.matchThisFrag turn _)
  · exact counted

/-- Over all fragments of a sender, none is lost. -/
theorem foldl_addPending_perm (mine : List PendingFrag) (p : CommProc) :
    let q := mine.foldl (fun p f => p.addPending overlay comm f) p
    (q.matched ++ ringFrags q.fragsCantMatch).Perm
      (mine.map (PendingFrag.listed overlay) ++ (p.matched ++ ringFrags p.fragsCantMatch)) := by
  induction mine generalizing p with
  | nil => rfl
  | cons f mine ih =>
    exact (ih _).trans (((addPending_perm f).append_left _).trans perm_middle)

/-- With overtaking, the fragments are handed over as they have arrived. -/
theorem foldl_addPending_overtake (overtakes : comm.allowOvertake = true)
    (mine : List PendingFrag) (p : CommProc) :
    (mine.foldl (fun p f => p.addPending overlay comm f) p).matched
      = p.matched ++ mine.map (PendingFrag.listed overlay) := by
  induction mine generalizing p with
  | nil => simp
  | cons f mine ih =>
    rw [foldl_cons, ih]
    simp [addPending, overtakes, matchOne]

/-- Without overtaking, fragments that show their own numbers are handed over in sending order. -/
theorem Counted.foldl_addPending (ordered : comm.allowOvertake = false)
    {mine : List PendingFrag} (shows : ∀ f ∈ mine, f.listed overlay = f.sent)
    (counted : Counted p) : Counted (mine.foldl (fun p f => p.addPending overlay comm f) p) := by
  induction mine generalizing p with
  | nil => exact counted
  | cons f mine ih =>
    exact ih (fun g mem => shows g (mem_cons_of_mem _ mem))
      (counted.addPending ordered (shows f mem_cons_self))

/-- The lists show a fragment of the communicator as it was sent, unless the extended id in front
of its header reads otherwise. -/
theorem listed_eq_sent_iff (mine : f.isFor comm = true) :
    f.listed overlay = f.sent ↔ (f.hdrCid = some comm.cContextid →
      overlay comm.cContextid = (f.hdrMatch.hdrTag, f.hdrMatch.hdrSeq)) := by
  obtain ⟨num, _ | cid, hdr⟩ := f
  · simp [PendingFrag.listed]
  · cases of_decide_eq_true mine
    simp [PendingFrag.listed, PendingFrag.sent, Prod.ext_iff]

theorem num_listed (f : PendingFrag) : (f.listed overlay).num = f.num := by
  unfold PendingFrag.listed
  split <;> rfl

theorem mem_ofSender :
    f ∈ ofSender comm src pending
      ↔ f ∈ pending ∧ f.isFor comm = true ∧ f.hdrMatch.hdrSrc = src := by
  simp [ofSender]

/-- When a communicator is added, the fragments that waited for it move to the lists of their
senders, unlost and in sending order, exactly if the extended id in front of a match header reads
like its tag and number; with overtaking, the numbers must also have arrived in order. -/
theorem pending_moved_iff {pmlMaxContextid : Nat} {s : Pml}
    (distinct : ∀ src, ((ofSender comm src pending).map PendingFrag.num).Nodup)
    (added : addComm overlay comm pmlMaxContextid pending = some s) :
    Moved comm pending s ↔
      (∀ f ∈ pending, f.hdrCid = some comm.cContextid →
        overlay comm.cContextid = (f.hdrMatch.hdrTag, f.hdrMatch.hdrSeq))
      ∧ (comm.allowOvertake = true → ∀ src,
        (ofSender comm src pending).map (fun f => f.hdrMatch.hdrSeq)
          = firstNumbers (ofSender comm src pending).length) := by
  obtain ⟨others, procs⟩ := addComm_some added
  have kept := fun src => procs src ▸ foldl_addPending_perm (ofSender comm src pending) .new
  have handed := fun overtakes src => procs src ▸
    foldl_addPending_overtake overtakes (ofSender comm src pending) .new
  simp only [CommProc.new, ringFrags_nil, append_nil, nil_append] at kept handed
  constructor
  · intro moved
    -- The lists show the fragments, and since these are distinct, each one as it was sent.
    have shows : ∀ src, ∀ f ∈ ofSender comm src pending, f.listed overlay = f.sent := by
      intro src f mem
      have shown := ((kept src).symm.trans (moved.sits src)).mem_iff.mp (mem_map_of_mem mem)
      obtain ⟨g, other, same⟩ := mem_map.mp shown
      have num : g.num = f.num := (congrArg RecvFrag.num same).trans (num_listed f)
      rw [← same, inj_on_of_nodup_map (distinct src) other mem num]
    refine ⟨fun f mem cid => ?_, fun overtakes src => ?_⟩
    · have mine : f.isFor comm = true := by simp [PendingFrag.isFor, cid]
      exact (listed_eq_sent_iff mine).mp (shows _ f (mem_ofSender.mpr ⟨mem, mine, rfl⟩)) cid
    · have inOrder := moved.inOrder src
      rwa [handed overtakes, map_congr_left (shows src), map_map, length_map] at inOrder
  · intro ⟨reads, arrived⟩
    have shows : ∀ src, ∀ f ∈ ofSender comm src pending, f.listed overlay = f.sent :=
      fun src f mem => (listed_eq_sent_iff (mem_ofSender.mp mem).2.1).mpr
        (reads f (mem_ofSender.mp mem).1)
    refine ⟨others, fun src => map_congr_left (shows src) ▸ kept src, fun src => ?_⟩
    cases overtakes : comm.allowOvertake with
    | true =>
      rw [handed overtakes, map_congr_left (shows src), map_map, length_map]
      exact arrived overtakes src
    | false =>
      rw [procs]
      exact (Counted.foldl_addPending overtakes (shows src) (p := .new) ⟨rfl, rfl⟩).1

/-- What a little-endian machine has where a plain header keeps the tag and the number: the low
32 bits of the base, and the next 16. -/
def littleEndian (cid : ExtendedCid) : Int × Nat :=
  (Int.bmod cid.cidBase (2 ^ 32), cid.cidBase / 2 ^ 32 % 2 ^ 16)

/-- An extended id that reads like the header behind it does no harm; the fragment of the other
communicator stays. -/
theorem pending_moved_at_two_headers :
    let comm : Communicator := ⟨5, ⟨2 ^ 32 + 3, 0⟩, false⟩
    let pending : List PendingFrag := [⟨2, none, ⟨.match, 5, 0, 4, 2⟩⟩,
      ⟨3, none, ⟨.match, 6, 0, 4, 1⟩⟩, ⟨1, some comm.cContextid, ⟨.match, 0, 0, 3, 1⟩⟩]
    ∃ s, addComm littleEndian comm 9 pending = some s ∧ Moved comm pending s := by
  intro comm pending
  have added : addComm littleEndian comm 9 pending
      = some (pending.foldl (takePending littleEndian comm) ⟨[], fun _ => .new⟩) := rfl
  have distinct : (pending.map PendingFrag.num).Nodup := by decide
  exact ⟨_, added, (pending_moved_iff (fun src => distinct.sublist (filter_sublist.map _))
    added).mpr ⟨by decide, nofun⟩⟩

/-- The only message of its sender has tag 3 and number 1. It is taken in its turn, but the
unexpected list shows the extended id in place of both. -/
theorem extended_id_shown_as_tag :
    ∃ s, addComm littleEndian ⟨5, ⟨7, 0⟩, false⟩ 9
        [⟨1, some ⟨7, 0⟩, ⟨.match, 0, 0, 3, 1⟩⟩] = some s
      ∧ (s.procs 0).matched = [⟨1, .match, 7, 0⟩]
      ∧ ¬ Moved ⟨5, ⟨7, 0⟩, false⟩ [⟨1, some ⟨7, 0⟩, ⟨.match, 0, 0, 3, 1⟩⟩] s :=
  ⟨_, rfl, by decide, fun moved => absurd (moved.inOrder 0) (by decide)⟩

end EduMpi.Ob1
