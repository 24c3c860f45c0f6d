import EduMpi.Ddt.OptimizeLaws

/-! The stack machine that walks over a description, shared by all that move data. -/

namespace EduMpi.Ddt

/-- `dt_stack_t`: a loop being run, or the position itself. The loop over the copies of the type has
no index, a loop has no type. -/
structure Frame where
  index : Option Nat
  type : Option Basic
  count : Nat
  disp : Offset
  deriving DecidableEq, Repr

/-- The record at a position; behind the last one stands the fake end. -/
def entryAt (desc : List Entry) (pos : Nat) : Entry := desc.getD pos (.endLoop ⟨0, 0, 0⟩)

/-- The counter with which a record is begun, `UPDATE_INTERNAL_COUNTERS`. -/
def freshCount : Entry → Nat
  | .elem e => e.count * e.blocklen
  | .loop l => l.loops
  | .endLoop _ => 0

/-- The type written into the stack for a record. -/
def Entry.type : Entry → Option Basic
  | .elem e => some e.type
  | _ => none

/-- Where a walk is: the loops around, the record, what is left of it, and the place reached, all
behind the base address. -/
structure Cursor where
  frames : List Frame
  pos : Nat
  count : Nat
  ptr : Offset
  deriving DecidableEq, Repr

namespace Cursor

/-- The displacement of the innermost loop. -/
def base (c : Cursor) : Offset := (c.frames.head?.map Frame.disp).getD 0

/-- Goes to the start of a record. -/
def moveTo (desc : List Entry) (c : Cursor) (pos : Nat) : Cursor :=
  { c with pos, count := freshCount (entryAt desc pos), ptr := c.base }

/-- Takes the position from the top of the stack. -/
def load : List Frame → Cursor
  | top :: frames => ⟨frames, top.index.getD 0, top.count, top.disp⟩
  | [] => ⟨[], 0, 0, 0⟩

/-- Puts the position on top of the stack. -/
def save (desc : List Entry) (c : Cursor) : List Frame :=
  ⟨some c.pos, (entryAt desc c.pos).type, c.count, c.ptr⟩ :: c.frames

/-- The distance between two turns of a loop. -/
def stride (desc : List Entry) (extent : Offset) : Option Nat → Offset
  | none => extent
  | some index =>
    match entryAt desc index with
    | .loop l => l.extent
    | _ => 0

/-- The end of a loop: one more turn, or on behind it; nothing is left behind the outermost. -/
def turn (desc : List Entry) (extent : Offset) (c : Cursor) : Option Cursor :=
  match c.frames with
  | [] => none
  | frame :: frames =>
    if frame.count - 1 = 0 then
      if frames = [] then none else some ({ c with frames }.moveTo desc (c.pos + 1))
    else
      let again := { frame with
        count := frame.count - 1, disp := frame.disp + stride desc extent frame.index }
      some ({ c with frames := again :: frames }.moveTo desc
        (match frame.index with
          | none => 0
          | some index => index + 1))

/-- The start of a loop; `moved` is what its first turns have already taken. -/
def enter (desc : List Entry) (c : Cursor) (count : Nat) (moved : Offset) : Cursor :=
  { c with frames := ⟨some c.pos, none, count, c.base + moved⟩ :: c.frames }.moveTo desc (c.pos + 1)

end Cursor

/-- What a walk does at elements and at loops flagged as contiguous: from the counter and the place
reached to the new ones. -/
structure Ops (σ : Type) where
  data : Elem → Nat → Offset → σ → Nat × Offset × σ
  contiguous : Loop → EndLoop → Nat → Offset → σ → Nat × Offset × σ
  enters : Bool

/-- A walk under way. -/
structure Walk (σ : Type) where
  cursor : Cursor
  store : σ

/-- Why a walk goes on or stops: there is no room, or everything is done. -/
inductive Verdict where
  | going
  | full
  | done
  deriving DecidableEq, Repr

namespace Walk

variable {σ : Type}

/-- One record of the main loop. -/
def step (desc : List Entry) (extent : Offset) (ops : Ops σ) (w : Walk σ) : Walk σ × Verdict :=
  let c := w.cursor
  match entryAt desc c.pos with
  | .elem e =>
    let (count, ptr, store) := ops.data e c.count c.ptr w.store
    if count ≠ 0 then (⟨{ c with count, ptr }, store⟩, .full)
    else (⟨c.moveTo desc (c.pos + 1), store⟩, .going)
  | .endLoop _ =>
    match c.turn desc extent with
    | none => (w, .done)
    | some cursor => (⟨cursor, w.store⟩, .going)
  | .loop l =>
    if l.contiguous then
      let f := loopEnd l (desc.drop (c.pos + 1))
      let (count, ptr, store) := ops.contiguous l f c.count c.ptr w.store
      if count = 0 then (⟨c.moveTo desc (c.pos + l.items + 1), store⟩, .going)
      else if ops.enters then (⟨c.enter desc count (ptr - c.ptr), store⟩, .going)
      else (⟨{ c with count, ptr }, store⟩, .full)
    else (⟨c.enter desc c.count 0, w.store⟩, .going)

/-- The main loop, for at most so many records. -/
def run (desc : List Entry) (extent : Offset) (ops : Ops σ) : Nat → Walk σ → Walk σ × Verdict
  | 0, w => (w, .going)
  | n + 1, w =>
    match step desc extent ops w with
    | (next, .going) => run desc extent ops n next
    | stopped => stopped

end Walk

/-- The records a walk over the description visits, read from the right as `expandEntry` does. -/
def visitEntry : Entry → List Nat → List Nat
  | .elem _, top :: rest => (top + 1) :: rest
  | .endLoop _, stack => 0 :: stack
  | .loop l, body :: after :: rest => (l.loops * (body + 1) + 1 + after) :: rest
  | _, stack => stack

/-- How many records a walk over the description visits. -/
def visits (desc : List Entry) : Nat := (desc.foldr visitEntry [0]).headD 0

/-- Enough records for a walk over so many copies. -/
def budget (desc : List Entry) (count : Nat) : Nat := count * (visits desc + 1) + 1

end EduMpi.Ddt
