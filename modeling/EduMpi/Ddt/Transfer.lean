import EduMpi.Ddt.Convertor

/-! Moving the data of one element between the user's buffer and a packed buffer: what packing and
unpacking have in common. -/

namespace EduMpi.Ddt

/-- The memory of the process, byte by byte. -/
abbrev Memory := Offset → UInt8

/-- The packed side of a copy: how much is left of it, where it goes on, and how a number of bytes
is moved between it and an address of the user's buffer. -/
structure Channel (σ : Type) where
  space : σ → Nat
  addr : σ → Offset
  move : σ → Offset → Nat → σ

/-- The predefined types in the switch of `opal_datatype_pack_predefined_element` and of
`opal_datatype_unpack_predefined_element`. -/
def Basic.hasFastCopy : Basic → Bool
  | .long | .unsignedLong => false
  | _ => true

/-- Whether the copy by typed loads and stores goes ahead. -/
def Elem.FastCopy (arch : Arch) (e : Elem) (cando : Nat) (user packed : Offset) : Prop :=
  e.type.hasFastCopy = true ∧ user.toNat % arch.align e.type = 0 ∧
    packed.toNat % arch.align e.type = 0 ∧ (e.extent % arch.align e.type = 0 ∨ cando ≤ e.blocklen)

instance (arch : Arch) (e : Elem) (cando : Nat) (user packed : Offset) :
    Decidable (e.FastCopy arch cando user packed) :=
  inferInstanceAs (Decidable (_ ∧ _ ∧ _ ∧ _))

/-- The distance of two blocks as the typed copy steps over it: whole elements only. -/
def Elem.typedStride (arch : Arch) (e : Elem) : Offset :=
  (((e.extent : Offset).toNat / arch.size e.type * arch.size e.type : Nat) : Offset)

/-- How many elements a space has room for, out of so many. -/
def Elem.cando (arch : Arch) (e : Elem) (count space : Nat) : Nat :=
  if space < arch.size e.type * count then space / arch.size e.type else count

/-- One element: the rest of a block begun before, which can only be met at the start of an iovec,
and the blocks behind it. -/
def Elem.transfer {σ : Type} (rest : Elem → Nat → Offset → σ → Bool × Nat × Offset × σ)
    (data : Elem → Nat → Offset → σ → Nat × Offset × σ) (e : Elem) (count : Nat) (ptr : Offset)
    (s : σ) : Nat × Offset × σ :=
  if e.count * e.blocklen ≠ count then
    match rest e count ptr s with
    | (true, count, ptr, s) => if count = 0 then (count, ptr, s) else data e count ptr s
    | (false, count, ptr, s) => (count, ptr, s)
  else data e count ptr s

namespace Channel

variable {σ : Type} (arch : Arch) (ch : Channel σ)

/-- Moves so many blocks of `n` bytes that are `stride` apart. -/
def moveBlocks (n : Nat) (stride : Offset) : Nat → Offset → σ → Offset × σ
  | 0, user, s => (user, s)
  | blocks + 1, user, s => moveBlocks n stride blocks (user + stride) (ch.move s user n)

/-- `OPAL_DATATYPE_PACK_PREDEFINED_ELEMENT` and its twin behind their checks: full blocks, then the
residual data. -/
def predefinedElement (e : Elem) (cando : Nat) (user : Offset) (s : σ) : Offset × σ :=
  let (user, s) := ch.moveBlocks (e.block arch) (e.typedStride arch) (cando / e.blocklen) user s
  let rest := cando % e.blocklen * arch.size e.type
  (user + (rest : Offset), ch.move s user rest)

/-- The copies of whole blocks and of a remainder by `memcpy`. -/
def byMemcpy (e : Elem) (cando : Nat) (user : Offset) (s : σ) : Offset × σ :=
  if e.blocklen = 1 then ch.moveBlocks (arch.size e.type) (e.extent : Offset) cando user s
  else
    -- A single block is left to the epilog, which does not step over the gap.
    let blocks := if 1 < e.count ∧ e.blocklen ≤ cando then cando / e.blocklen else 0
    let (user, s) := ch.moveBlocks (e.block arch) (e.extent : Offset) blocks user s
    let rest := (cando - blocks * e.blocklen) * arch.size e.type
    (user + (rest : Offset), ch.move s user rest)

/-- Whole blocks, and a remainder when the space ends. -/
def predefinedData (base : Offset) (e : Elem) (count : Nat) (ptr : Offset) (s : σ) :
    Nat × Offset × σ :=
  let cando := e.cando arch count (ch.space s)
  let user := base + ptr + (e.disp : Offset)
  let (user, s) :=
    if e.blocklen < 9 ∧ e.FastCopy arch cando user (ch.addr s) then
      ch.predefinedElement arch e cando user s
    else ch.byMemcpy arch e cando user s
  (count - cando, user - (e.disp : Offset) - base, s)

/-- The rest of a block that was begun before, and whether it is complete now. -/
def restOfBlock (base : Offset) (e : Elem) (count : Nat) (ptr : Offset) (s : σ) :
    Bool × Nat × Offset × σ :=
  let left := count % e.blocklen
  if left = 0 then (true, count, ptr, s)
  else
    let now := e.cando arch left (ch.space s)
    let bytes := now * arch.size e.type
    let ptr' := ptr + (bytes : Offset)
    let s := ch.move s (base + ptr + (e.disp : Offset)) bytes
    -- Behind a complete block the gap is stepped over.
    if now = left then (true, count - now, ptr' + ((e.extent : Offset) - (e.block arch : Nat)), s)
    else (false, count - now, ptr', s)

/-- Whole turns of a loop whose content has no gap. -/
def contiguousLoop (base : Offset) (l : Loop) (f : EndLoop) (count : Nat) (ptr : Offset) (s : σ) :
    Nat × Offset × σ :=
  let loops := if ch.space s < count * f.size then ch.space s / f.size else count
  let (user, s) := ch.moveBlocks f.size (l.extent : Offset) loops
    (base + ptr + (f.firstElemDisp : Offset)) s
  (count - loops, user - (f.firstElemDisp : Offset) - base, s)

end Channel

/-- A place inside a row of equal blocks: what is left of the present block, in bytes, how far it
was taken, and how many blocks are left from where on. -/
structure Row where
  left : Nat
  inside : Offset
  blocks : Nat
  start : Offset
  deriving DecidableEq, Repr

namespace Row

/-- The row a stack stands for; from now on its blocks are counted in bytes. -/
def ofStack (arch : Arch) (top bottom : Frame) : Row :=
  ⟨top.count * (top.type.map arch.size).getD 0, top.disp, bottom.count, bottom.disp⟩

/-- The stack of a row. -/
def toStack (row : Row) (top bottom : Frame) : List Frame :=
  [{ top with type := some .uint1, count := row.left, disp := row.inside },
    { bottom with count := row.blocks, disp := row.start }]

/-- The address of the next byte of a row, behind the base address. -/
def place (t : Datatype) (row : Row) : Offset := (t.trueLb : Offset) + row.start + row.inside

/-- The row after some more bytes of its present block. -/
def advance (row : Row) (n : Nat) : Row :=
  { row with left := row.left - n, inside := row.inside + (n : Offset) }

end Row

/-- As many full blocks of a row as there is space for, and where the next one starts. -/
def Channel.fullBlocks {σ : Type} (ch : Channel σ) (t : Datatype) (base : Offset) (row : Row)
    (s : σ) : Row × Offset × σ :=
  let full := ch.space s / t.size
  let (user, s) := ch.moveBlocks t.size (t.extent : Offset) full (base + row.place t) s
  ({ row with
    blocks := row.blocks - full, start := row.start + (full : Offset) * (t.extent : Offset) },
    user, s)

end EduMpi.Ddt
