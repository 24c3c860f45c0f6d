import Mathlib.Algebra.Ring.Nat

/-! How ob1 puts the first fragments of a sender's messages back in sending order. -/

namespace EduMpi.Ob1

/-- The kinds of header the first fragment of a message can have. -/
inductive HdrType where
  | match
  | rndv
  | rget
deriving DecidableEq, Repr

/-- The first fragment of a message: the header its sender wrote, and the whole number of the
message, of which the header keeps sixteen bits. -/
structure RecvFrag where
  num : Nat
  hdrType : HdrType
  hdrTag : Int
  hdrSeq : Nat
deriving DecidableEq, Repr

/-- A fragment on the horizontal ring, with the fragments of its vertical ring. -/
structure Chain where
  first : RecvFrag
  range : List RecvFrag
deriving DecidableEq, Repr

namespace Chain

/-- The fragments of a chain, in the order they leave it. -/
def frags (c : Chain) : List RecvFrag := c.first :: c.range

/-- The number the ring is searched by. -/
def seq (c : Chain) : Nat := c.first.hdrSeq

/-- The number of the largest fragment, which is the last of the vertical ring if there is one. -/
def upper (c : Chain) : Nat := (c.range.getLastD c.first).hdrSeq

/-- Fragments put at the end of the vertical ring. -/
def join (c : Chain) (more : List RecvFrag) : Chain := { c with range := c.range ++ more }

end Chain

/-- The fragments of a ring from its head on. -/
def ringFrags (ring : List Chain) : List RecvFrag := ring.flatMap Chain.frags

/-- A difference of two numbers, as sixteen bits keep it. -/
def seqDiff (a b : Nat) : Nat := (a + 2 ^ 16 - b) % 2 ^ 16

/-- How far apart two numbers are as C's `abs` has it. -/
def seqAbs (a b : Nat) : Nat := a - b + (b - a)

/-- A fragment of the ring, what stands between the head and it, and what follows it. -/
structure Place where
  before : List Chain
  parent : Chain
  after : List Chain

/-- The search from the head forwards. It stops at the last fragment at the latest, since the
head that follows it has a smaller number than the one the search came to. -/
def searchForward (hdrSeq : Nat) (prior : Chain) : List Chain → Place
  | [] => ⟨[], prior, []⟩
  | next :: after =>
    if prior.seq < hdrSeq ∧ next.seq < hdrSeq ∧ prior.seq < next.seq then
      let found := searchForward hdrSeq next after
      { found with before := prior :: found.before }
    else ⟨[], prior, next :: after⟩

/-- The search from the head backwards, over what is left of the ring in reverse. -/
def searchBackward (hdrSeq : Nat) (head : Chain) (d1 : Nat) (after : List Chain) :
    List Chain → Place
  | [] => ⟨[], head, after⟩
  | prior :: rest =>
    if hdrSeq < prior.seq ∧ seqDiff prior.seq hdrSeq < d1 then
      searchBackward hdrSeq head (seqDiff prior.seq hdrSeq) (prior :: after) rest
    else ⟨head :: rest.reverse, prior, after⟩

/-- The end of an insertion: the chain after `parent` joins it if it carries on its numbers. -/
def mergeRanges (before : List Chain) (parent : Chain) : List Chain → List Chain
  | next :: after =>
    if parent.upper + 1 = next.seq then before ++ parent.join next.frags :: after
    else before ++ parent :: next :: after
  | [] =>
    -- What follows the last chain is the head, and a head that joins it hands its role on.
    match before with
    | [] => [parent]
    | head :: middle =>
      if parent.upper + 1 = head.seq then parent.join head.frags :: middle
      else before ++ [parent]

/-- Puts a fragment into the ring, given here from its head on. -/
def appendFragToOrderedList (frag : RecvFrag) (seq : Nat) : List Chain → List Chain
  | [] => [⟨frag, []⟩]
  | head :: rest =>
    let found :=
      if frag.hdrSeq < head.seq then
        searchBackward frag.hdrSeq head (seqDiff head.seq frag.hdrSeq) [] rest.reverse
      else searchForward frag.hdrSeq head rest
    if found.parent.upper + 1 = frag.hdrSeq then
      mergeRanges found.before (found.parent.join [frag]) found.after
    else if seq ≤ frag.hdrSeq ∧ seqAbs frag.hdrSeq seq < seqAbs head.seq seq then
      -- The fragment becomes the head, so the ring is read from it.
      mergeRanges [] ⟨frag, []⟩ (found.after ++ (found.before ++ [found.parent]))
    else mergeRanges (found.before ++ [found.parent]) ⟨frag, []⟩ found.after

/-- Takes the head off the ring; the first of its vertical ring takes its place. -/
def removeHeadFromOrderedList : List Chain → Option (RecvFrag × List Chain)
  | [] => none
  | ⟨frag, []⟩ :: rest => some (frag, rest)
  | ⟨frag, next :: range⟩ :: rest => some (frag, ⟨next, range⟩ :: rest)

/-- What the receiver keeps for one sender, with the fragments handed to matching so far. -/
structure CommProc where
  expectedSequence : Nat
  fragsCantMatch : List Chain
  matched : List RecvFrag
deriving DecidableEq, Repr

namespace CommProc

/-- The fragment on top of the queue, if it is the expected one. -/
def checkCantmatchForMatch (p : CommProc) : Option (RecvFrag × CommProc) :=
  match p.fragsCantMatch with
  | [] => none
  | head :: _ =>
    if head.seq = p.expectedSequence then
      (removeHeadFromOrderedList p.fragsCantMatch).map fun (frag, ring) =>
        (frag, { p with fragsCantMatch := ring })
    else none

/-- Hands a fragment to matching, leaving the expected number alone. -/
def matchOne (frag : RecvFrag) (p : CommProc) : CommProc :=
  { p with matched := p.matched ++ [frag] }

/-- Hands the expected fragment to matching and expects the next. -/
def matchThisFrag (frag : RecvFrag) (p : CommProc) : CommProc :=
  matchOne frag { p with expectedSequence := (p.expectedSequence + 1) % 2 ^ 16 }

/-- Hands over queued fragments until the next expected one is not on top of the queue. -/
def matchQueued : Nat → CommProc → CommProc
  | 0, p => p
  | queued + 1, p =>
    match p.checkCantmatchForMatch with
    | none => p
    | some (frag, rest) => matchQueued queued (matchThisFrag frag rest)

/-- The queued fragments whose turn has come, each of them taken at most once. -/
def matchCantMatch (p : CommProc) : CommProc := matchQueued (ringFrags p.fragsCantMatch).length p

/-- Hands over a fragment and all queued ones that follow it. -/
def recvFragMatchProc (frag : RecvFrag) (p : CommProc) : CommProc :=
  (p.matchThisFrag frag).matchCantMatch

/-- Puts an out-of-sequence fragment into the queue. -/
def queueFrag (frag : RecvFrag) (p : CommProc) : CommProc :=
  { p with
    fragsCantMatch := appendFragToOrderedList frag p.expectedSequence p.fragsCantMatch }

/-- A fragment with a plain match header arrives. -/
def recvFragCallbackMatch (allowOvertake : Bool) (frag : RecvFrag) (p : CommProc) : CommProc :=
  if allowOvertake = false ∨ frag.hdrTag < 0 then
    if frag.hdrSeq ≠ p.expectedSequence then p.queueFrag frag else p.recvFragMatchProc frag
  else (p.matchOne frag).matchCantMatch

/-- A fragment with another header arrives. -/
def recvFragMatch (allowOvertake : Bool) (frag : RecvFrag) (p : CommProc) : CommProc :=
  if (allowOvertake = false ∨ frag.hdrTag < 0) ∧ frag.hdrSeq ≠ p.expectedSequence then
    p.queueFrag frag
  else p.recvFragMatchProc frag

/-- The first fragment of a message arrives. -/
def arrive (allowOvertake : Bool) (frag : RecvFrag) (p : CommProc) : CommProc :=
  if frag.hdrType = .match then p.recvFragCallbackMatch allowOvertake frag
  else p.recvFragMatch allowOvertake frag

end CommProc

end EduMpi.Ob1
