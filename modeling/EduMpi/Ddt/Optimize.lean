import EduMpi.Ddt.Bytes

/-! `opal_datatype_commit`: the pass that makes the optimized description. -/

namespace EduMpi.Ddt

open Ints

namespace Elem

/-- What `CREATE_ELEM` writes: blocks without a gap between them become one block. -/
def create (arch : Arch) (e : Elem) : Elem :=
  if e.extent = int64 (e.block arch) then
    { e with
      blocklen := e.blocklen * e.count % 2 ^ 64
      extent := int64 (e.extent * e.count)
      count := 1 }
  else e

/-- An element rewritten as bytes. -/
def retype (arch : Arch) (e : Elem) : Elem :=
  { e with type := .uint1, blocklen := e.block arch % 2 ^ 64 }

/-- An element that takes the next one in by a larger count, with the count before it is stored. -/
def merge? (arch : Arch) (last current : Elem) : Option Elem :=
  if last.block arch % 2 ^ 64 = current.block arch % 2 ^ 64 then
    let last := if last.type ≠ current.type then last.retype arch else last
    let follows := int64 (last.extent * last.count + last.disp) = current.disp
    if follows ∧ current.count = 1 then some { last with count := last.count + 1 }
    else if follows ∧ last.extent = current.extent then
      some { last with count := last.count + current.count }
    else if last.count = 1 ∧ current.count = 1 then
      -- The extent of a single block is free to become the distance of the two.
      some { last with extent := int64 (current.disp - last.disp), count := 2 }
    else if last.count = 1 ∧ int64 (last.disp + current.extent) = current.disp then
      some { last with extent := current.extent, count := current.count + last.count }
    else none
  else none

/-- The last block of an element joined with the first block of the next one. -/
def join (arch : Arch) (last current : Elem) : Elem :=
  let extent := int64 (last.extent + current.extent)
  if last.type = current.type then
    { last with blocklen := (last.blocklen + current.blocklen) % 2 ^ 64, extent }
  else
    { last with
      type := .uint1
      blocklen := (last.block arch + current.block arch) % 2 ^ 64
      extent }

/-- Whether the first block of the next element starts where the last block of this one ends. -/
def Touches (arch : Arch) (last current : Elem) : Prop :=
  int64 (last.disp + (last.count - 1) * last.extent + last.block arch) = current.disp

instance (arch : Arch) (last current : Elem) : Decidable (last.Touches arch current) :=
  inferInstanceAs (Decidable (_ = _))

end Elem

/-- The state of `opal_datatype_optimize_short`: the records still to read, the records written,
the pending element (none when its count is zero) and the starts of the open loops. -/
structure Pass where
  rest : List Entry
  out : List Entry
  last : Elem
  opened : List Nat
  restricted : Bool
  deriving DecidableEq, Repr

namespace Pass

/-- The pass before its first record. -/
def start (desc : List Entry) : Pass := ⟨desc, [], ⟨.int1, 0, 0, 0, 0⟩, [], false⟩

/-- Writes an element. -/
def emit (arch : Arch) (p : Pass) (e : Elem) : Pass :=
  { p with out := p.out ++ [.elem (e.create arch)] }

/-- Writes the pending element. -/
def flush (arch : Arch) (p : Pass) : Pass :=
  if p.last.count = 0 then p
  else
    let p := p.emit arch p.last
    { p with last.count := 0 }

/-- Writes all blocks of the pending element but its last one. -/
def keepLast (arch : Arch) (p : Pass) : Pass :=
  if p.last.count ≠ 1 then
    let p' := p.emit arch { p.last with count := p.last.count - 1 }
    { p' with
      last.disp := int64 (p.last.disp + (p.last.count - 1) * p.last.extent)
      last.count := 1 }
  else p

/-- Joins the first block of an element to the pending block; its other blocks become pending. -/
def joinFirst (arch : Arch) (p : Pass) (current : Elem) : Pass :=
  let p :=
    { p with
      last := p.last.join arch current
      restricted := p.restricted || p.last.type ≠ current.type }
  if current.count ≠ 1 then
    let p := p.emit arch p.last
    { p with
      last := { current with
        count := (current.count + (2 ^ 32 - 1)) % 2 ^ 32
        disp := int64 (current.disp + current.extent) } }
  else p

/-- `OPAL_DATATYPE_OPTIMIZED_RESTRICTED` is set as soon as two blocks could be merged as bytes. -/
def restrict (arch : Arch) (p : Pass) (current : Elem) : Pass :=
  { p with
    restricted := p.restricted ||
      p.last.block arch % 2 ^ 64 = current.block arch % 2 ^ 64 && p.last.type ≠ current.type }

/-- Takes an element in next to a pending one: by a larger count, by a longer block or not. -/
def combine (arch : Arch) (p : Pass) (current : Elem) : Pass :=
  match p.last.merge? arch current with
  | some merged =>
    { p.restrict arch current with last := { merged with count := merged.count % 2 ^ 32 } }
  | none =>
    if p.last.Touches arch current then
      ((p.restrict arch current).keepLast arch).joinFirst arch current
    else { (p.restrict arch current).emit arch p.last with last := current }

/-- The code behind `fuse_loops`: takes in one element. -/
def fuse (arch : Arch) (p : Pass) (current : Elem) : Pass :=
  if p.last.count = 0 then { p with last := current }
  else { p with last := p.last.create arch }.combine arch current

end Pass

/-- The records of the loop that starts before `rest`, and its end. -/
def loopBody (l : Loop) (rest : List Entry) : List Entry := rest.take (l.items - 1)

/-- The end record of the loop that starts before `rest`. -/
def loopEnd (l : Loop) (rest : List Entry) : EndLoop :=
  match rest.drop (l.items - 1) with
  | .endLoop f :: _ => f
  | _ => ⟨0, 0, 0⟩

/-- The body from its first element on, `GET_FIRST_NON_LOOP`. -/
def dropLoops : List Entry → List Entry
  | .loop _ :: rest => dropLoops rest
  | desc => desc

/-- The block lengths of records that are all elements of one type. -/
def sameType (b : Basic) : List Entry → Option Nat
  | [] => some 0
  | .elem e :: rest => if e.type = b then (sameType b rest).map (e.blocklen + ·) else none
  | _ => none

/-- A loop over contiguous data as one element, and whether its types were mixed. -/
def compress (l : Loop) (rest : List Entry) : Elem × Bool :=
  let f := loopEnd l rest
  match dropLoops (loopBody l rest) with
  | .elem e :: others =>
    match sameType e.type others with
    | some blocklen =>
      (⟨e.type, l.loops, (e.blocklen + blocklen) % 2 ^ 64, l.extent, f.firstElemDisp⟩, false)
    | none => (⟨.uint1, l.loops, f.size, l.extent, f.firstElemDisp⟩, true)
  | _ => (⟨.uint1, 0, 0, 0, 0⟩, false)

/-- The elements of a body, moved. -/
def movedElems (arch : Arch) (disp : Int) (body : List Entry) : List Entry :=
  body.filterMap fun
    | .elem e => some (.elem (Elem.create arch { e with disp := int64 (e.disp + disp) }))
    | _ => none

/-- A short loop written out. -/
def unroll (arch : Arch) (l : Loop) (rest : List Entry) : List Entry :=
  (List.range l.loops).flatMap fun i : Nat => movedElems arch (i * l.extent) (loopBody l rest)

namespace Pass

/-- Closes the innermost open loop; its start learns how many records it has. -/
def close (p : Pass) (f : EndLoop) : Pass :=
  match p.opened with
  | [] => p
  | index :: opened =>
    let items := p.out.length - index + 1
    { p with
      opened
      out := (p.out.modify (index - 1) fun
        | .loop l => .loop { l with items }
        | other => other) ++ [.endLoop { f with items }] }

/-- One turn of the main loop; the fake end behind the last record writes what is pending. -/
def step (arch : Arch) (p : Pass) : Pass :=
  match p.rest with
  | [] => p.flush arch
  | .endLoop f :: rest => ({ p with rest }.flush arch).close f
  | .loop l :: rest =>
    if l.contiguous then
      let (element, mixed) := compress l rest
      { p with rest := rest.drop l.items, restricted := p.restricted || mixed }.fuse arch
        (element.create arch)
    else
      let p := p.flush arch
      if l.items ≤ 3 ∧ l.loops ≤ 2 then
        { p with rest := rest.drop l.items, out := p.out ++ unroll arch l rest }
      else
        { p with rest, out := p.out ++ [.loop l], opened := (p.out.length + 1) :: p.opened }
  | .elem e :: rest => { p with rest }.fuse arch e

end Pass

/-- `opal_datatype_optimize_short`: every turn reads at least one record. -/
def optimizeShort (arch : Arch) (desc : List Entry) : Pass :=
  (Pass.step arch)^[desc.length + 1] (Pass.start desc)

/-- `opal_datatype_commit`. -/
def Datatype.commit (arch : Arch) (t : Datatype) : Datatype :=
  if t.flags.committed then t
  else if t.desc = [] then { t with flags.committed := true, optDesc := [] }
  else
    let p := optimizeShort arch t.desc
    { t with
      flags.committed := true
      flags.restricted := t.flags.restricted || p.restricted
      optDesc := p.out }

end EduMpi.Ddt
