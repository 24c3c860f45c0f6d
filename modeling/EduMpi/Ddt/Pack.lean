import EduMpi.Ddt.Transfer

/-! Packing: the bytes of a described buffer are copied into iovecs, call by call. -/

namespace EduMpi.Ddt

/-- So many bytes from an address on. -/
def Memory.read (mem : Memory) (addr : Offset) (n : Nat) : List UInt8 :=
  (List.range n).map fun i : Nat => mem (addr + (i : Offset))

/-- What is left of a packed buffer, where it goes on, and what was copied into it. -/
structure Room where
  space : Nat
  addr : Offset
  out : List UInt8
  deriving DecidableEq, Repr

/-- Copies so many bytes into the room. -/
def Room.put (mem : Memory) (room : Room) (src : Offset) (n : Nat) : Room :=
  ⟨room.space - n, room.addr + (n : Offset), room.out ++ mem.read src n⟩

/-- The packed side of a pack. -/
def packChannel (mem : Memory) : Channel Room := ⟨Room.space, Room.addr, Room.put mem⟩

section Pack

variable (arch : Arch) (mem : Memory)

/-- `pack_predefined_data`. -/
def packPredefinedData (base : Offset) (e : Elem) (count : Nat) (ptr : Offset) (room : Room) :
    Nat × Offset × Room :=
  (packChannel mem).predefinedData arch base e count ptr room

/-- `pack_partial_blocklen`. -/
def packPartialBlocklen (base : Offset) (e : Elem) (count : Nat) (ptr : Offset) (room : Room) :
    Bool × Nat × Offset × Room :=
  (packChannel mem).restOfBlock arch base e count ptr room

/-- `pack_contiguous_loop`. -/
def packContiguousLoop (base : Offset) (l : Loop) (f : EndLoop) (count : Nat) (ptr : Offset)
    (room : Room) : Nat × Offset × Room :=
  (packChannel mem).contiguousLoop base l f count ptr room

/-- The walk of a pack. -/
def packOps (base : Offset) : Ops Room where
  data := Elem.transfer (packPartialBlocklen arch mem base) (packPredefinedData arch mem base)
  contiguous := packContiguousLoop mem base
  enters := true

end Pack

/-- What a call of pack reports: the bytes in each iovec, how many iovecs and bytes it counts, and
whether it says that all is packed. -/
structure Packed where
  out : List (List UInt8)
  outSize : Nat
  maxData : Nat
  done : Bool
  deriving DecidableEq, Repr

namespace Convertor

variable (arch : Arch) (mem : Memory)

/-- The walk of one iovec. -/
def packIov (c : Convertor) (cursor : Cursor) (v : Iov) : Walk Room × Verdict :=
  Walk.run c.type.optDesc (c.type.extent : Offset) (packOps arch mem c.base)
    (budget c.type.optDesc c.count) ⟨cursor, v.len, v.addr, []⟩

/-- The loop over the iovecs, with the space they lost; the end of the data ends it early. -/
def packIovs (c : Convertor) : Cursor → List Iov → Cursor × List (List UInt8) × Nat
  | cursor, [] => (cursor, [], 0)
  | cursor, v :: iov =>
    let (x, verdict) := packIov arch mem c cursor v
    if verdict = .done then (x.cursor, [x.store.out], v.len - x.store.space)
    else
      let (cursor, out, total) := packIovs c x.cursor iov
      (cursor, x.store.out :: out, v.len - x.store.space + total)

/-- `opal_generic_simple_pack`. -/
def genericSimplePack (c : Convertor) (iov : List Iov) : Convertor × Packed :=
  let (cursor, out, total) := c.packIovs arch mem (Cursor.load c.stack) iov
  let c := { c with converted := c.converted + total }
  if c.converted = c.localSize then
    ({ c with completed := true, stack := cursor.frames }, ⟨out, out.length, total, true⟩)
  else ({ c with stack := cursor.save c.type.optDesc }, ⟨out, out.length, total, false⟩)

/-- Copies one block into iovecs until it ends or they do. -/
def packBlock : Offset → Nat → List Iov → List (List UInt8)
  | _, _, [] => []
  | src, left, v :: iov =>
    if left = 0 then []
    else
      let n := min v.len left
      mem.read src n :: packBlock (src + (n : Offset)) (left - n) iov

/-- `opal_pack_homogeneous_contig`: only the displacement of the lowest frame moves on. -/
def packHomogeneousContig (c : Convertor) (iov : List Iov) : Convertor × Packed :=
  match c.stack with
  | [top, bottom] =>
    let src := c.base + (c.type.trueLb : Offset) + bottom.disp + top.disp
    let out := packBlock mem src (c.localSize - c.converted) iov
    let total := (out.map List.length).sum
    let c := { c with
      converted := c.converted + total
      stack := [top, { bottom with disp := bottom.disp + (total : Offset) }] }
    let done := c.converted == c.localSize
    ({ c with completed := c.completed || done }, ⟨out, out.length, total, done⟩)
  | _ => (c, ⟨[], 0, 0, false⟩)

/-- The rest of a block that was begun before, the prologue of an iovec. -/
def finishRow (row : Row) (size : Nat) (extent : Offset) : Row :=
  if row.blocks - 1 = 0 then ⟨0, row.inside + (row.left : Offset), 0, row.start + extent⟩
  else ⟨size, 0, row.blocks - 1, row.start + extent⟩

/-- The start of a block, the end of an iovec. -/
def beginRow (row : Row) (size n : Nat) : Row :=
  if n = 0 then row
  else if row.left - n = 0 then { row with left := size, inside := 0 }
  else row.advance n

/-- Full blocks and the start of one more. -/
def packRow (c : Convertor) (row : Row) (room : Room) : Row × Room :=
  let (row, src, room) := (packChannel mem).fullBlocks c.type c.base row room
  (beginRow row c.type.size room.space, room.put mem src room.space)

/-- One iovec of `opal_pack_homogeneous_contig_with_gaps`; the flag says that the prologue ended the
last block, which leaves the loop over the iovecs at once. -/
def packGaps (c : Convertor) (row : Row) (room : Room) : Row × Room × Bool :=
  if c.type.size ≠ row.left ∧ row.left ≤ room.space then
    let room := room.put mem (c.base + row.place c.type) row.left
    let row := finishRow row c.type.size (c.type.extent : Offset)
    if row.blocks = 0 then (row, room, true)
    else
      let (row, room) := c.packRow mem row room
      (row, room, false)
  else
    let (row, room) := c.packRow mem row room
    (row, room, false)

/-- The loop over the iovecs, with how many of them and how many bytes are counted. -/
def packGapsIovs (c : Convertor) : Row → Nat → List Iov → Row × List (List UInt8) × Nat × Nat
  | row, _, [] => (row, [], 0, 0)
  | row, left, v :: iov =>
    let remaining := min v.len left
    if left = 0 then (row, [], 0, 0)
    else
      let (row, room, stop) := c.packGaps mem row ⟨remaining, v.addr, []⟩
      if stop then (row, [room.out], 0, remaining)
      else
        let (row, out, outSize, total) := packGapsIovs c row (left - remaining) iov
        (row, room.out :: out, outSize + 1, remaining + total)

/-- `opal_pack_homogeneous_contig_with_gaps`. -/
def packHomogeneousContigWithGaps (c : Convertor) (iov : List Iov) : Convertor × Packed :=
  match c.stack with
  | [top, bottom] =>
    let (row, out, outSize, total) := c.packGapsIovs mem (.ofStack arch top bottom)
      (c.localSize - c.converted) iov
    let c := { c with
      converted := c.converted + total
      stack := row.toStack top bottom }
    let done := c.converted == c.localSize
    ({ c with completed := c.completed || done }, ⟨out, outSize, total, c.completed || done⟩)
  | _ => (c, ⟨[], 0, 0, false⟩)

/-- The branch of `opal_convertor_pack` for data in one block. -/
def packNoOp (c : Convertor) (iov : List Iov) : Convertor × Packed :=
  let src := c.base + (c.converted : Offset) + (c.type.trueLb : Offset)
  let out := packBlock mem src (c.localSize - c.converted) iov
  let total := (out.map List.length).sum
  let c := { c with converted := c.converted + total }
  let done := c.converted == c.localSize
  ({ c with completed := done }, ⟨out, out.length, total, done⟩)

/-- `opal_convertor_pack` with buffers to pack into. -/
def pack (c : Convertor) (iov : List Iov) : Convertor × Packed :=
  if c.completed then (c, ⟨[], 0, 0, true⟩)
  else if c.noOp then c.packNoOp mem iov
  else if c.type.flags.contiguous then
    if c.type.extent = Ints.int64 c.type.size ∨ c.count ≤ 1 then c.packHomogeneousContig mem iov
    else c.packHomogeneousContigWithGaps arch mem iov
  else c.genericSimplePack arch mem iov

/-- A sequence of calls: the convertor after them and what each of them reports. -/
def packs (c : Convertor) : List (List Iov) → Convertor × List Packed
  | [] => (c, [])
  | iov :: calls =>
    let (c, packed) := c.pack arch mem iov
    let (c, rest) := packs c calls
    (c, packed :: rest)

end Convertor

end EduMpi.Ddt
