import EduMpi.Ddt.Description

/-! `opal_datatype_add`, the one operation every datatype constructor is made of. -/

namespace EduMpi.Ddt

open Ints

/-- `OPAL_DATATYPE_LB_UB_CONT`: the bounds of `count` repetitions behind `disp`. -/
def lbUbCont (count : Nat) (disp oldLb oldUb oldExtent : Int) : Int × Int :=
  if count = 0 then (int64 (oldLb + disp), int64 (oldUb + disp))
  else
    let upper := int64 (disp + oldExtent * (count - 1))
    -- A negative extent puts the last repetition below the first one.
    if disp < upper then (int64 (disp + oldLb), int64 (upper + oldUb))
    else (int64 (upper + oldLb), int64 (disp + oldUb))

/-- A record moved by the displacement of the type it belongs to. -/
def Entry.move (disp : Int) : Entry → Entry
  | .elem e => .elem { e with disp := int64 (e.disp + disp) }
  | .loop l => .loop l
  | .endLoop f => .endLoop { f with firstElemDisp := int64 (f.firstElemDisp + disp) }

/-- `GET_FIRST_NON_LOOP` followed by a read of its displacement. -/
def firstDisp : List Entry → Int
  | .loop _ :: rest => firstDisp rest
  | .elem e :: _ => e.disp
  | _ => 0

namespace Datatype

/-- The records of an added type, inside a loop unless it is added once. -/
def buildLoop (old : Datatype) (count : Nat) (disp extent : Int) : List Entry :=
  let body := old.desc.map (Entry.move disp)
  if count = 1 then body
  else
    let items := (old.desc.length + 1) % 2 ^ 32
    .loop ⟨old.flags.contiguous, count % 2 ^ 32, items, extent⟩ ::
      (body ++ [.endLoop ⟨items, old.size, firstDisp body⟩])

/-- The predefined type behind the flags `PREDEFINED` and `DATA`. -/
def predefined? (t : Datatype) : Option Basic :=
  if t.flags.predefined && t.flags.data then
    match t.id with
    | .basic b => some b
    | _ => none
  else none

/-- The records that stand for a predefined type. -/
def describeBasic (old : Datatype) (b : Basic) (count : Nat) (disp extent : Int) : List Entry :=
  if extent ≠ int64 old.size then [.elem ⟨b, count % 2 ^ 32, 1, extent, disp⟩]
  else [.elem ⟨b, 1, count, int64 (count * extent), disp⟩]

/-- The records that stand for a user-made type of a single element. -/
def describeElem (old : Datatype) (e : Elem) (count : Nat) (disp extent : Int) : List Entry :=
  let e := { e with disp := int64 (e.disp + disp) }
  if count = 1 then [.elem e]
  else if e.count = 1 then
    -- The blocks are taken to be adjacent when the extents agree.
    if e.extent = extent then
      [.elem { e with
        blocklen := e.blocklen * count % 2 ^ 64
        extent := int64 (e.extent * count) }]
    else [.elem { e with count := count % 2 ^ 32, extent }]
  else if extent = int64 (e.count * e.extent) then
    let cnt := e.count * count % 2 ^ 32
    if cnt < e.count then old.buildLoop count disp extent
    else [.elem { e with count := cnt }]
  else old.buildLoop count disp extent

/-- The records `opal_datatype_add` appends for `count` repetitions of a type. -/
def describe (old : Datatype) (count : Nat) (disp extent : Int) : List Entry :=
  match old.predefined? with
  | some b => old.describeBasic b count disp extent
  | none =>
    match old.desc with
    | [.elem e] => old.describeElem e count disp extent
    | _ => old.buildLoop count disp extent

/-- What an added type adds to the number of loops. -/
def describedLoops (old : Datatype) (count : Nat) (disp extent : Int) : Nat :=
  match old.predefined? with
  | some _ => 0
  | none =>
    match old.describe count disp extent with
    | .loop _ :: _ => if count = 1 then old.loops else old.loops + 2
    | _ => old.loops

/-- A lower bound marker. -/
def addLb (base : Datatype) (disp : Int) : Datatype :=
  let lb := if base.flags.userLb then min base.lb disp else disp
  { base with
    lb
    flags := { base.flags with
      userLb := true
      noGaps := base.flags.noGaps && int64 (base.ub - lb) == int64 base.size } }

/-- An upper bound marker. -/
def addUb (base : Datatype) (disp : Int) : Datatype :=
  let ub := if base.flags.userUb then max base.ub disp else disp
  { base with
    ub
    flags := { base.flags with
      userUb := true
      noGaps := base.flags.noGaps && int64 (ub - base.lb) == int64 base.size } }

/-- A bound under the rule that parts with a user bound hide the others. -/
def joinBound (pick : Int → Int → Int) (baseUser addUser : Bool) (base added : Int) : Int :=
  if baseUser = addUser then pick base added
  else if baseUser then base
  else added

/-- The upper bound after the padding, which only an upper bound without marker gets. -/
def padUb (userUb : Bool) (lb ub : Int) (align : Nat) : Int :=
  if userUb then ub
  else
    let epsilon := Int.tmod (int64 (ub - lb)) align
    if epsilon ≠ 0 then int64 (ub + (align - epsilon)) else ub

/-- The part of `opal_datatype_add` that every added type with a positive count goes through. -/
def addBounds (base old : Datatype) (count : Nat) (disp extent : Int) : Datatype :=
  let bounds := lbUbCont count disp old.lb old.ub extent
  let lb := joinBound min base.flags.userLb old.flags.userLb base.lb bounds.1
  let ub := joinBound max base.flags.userUb old.flags.userUb base.ub bounds.2
  let userUb := base.flags.userUb || old.flags.userUb
  let align := max base.align old.align
  { base with
    lb
    ub := padUb userUb lb ub align
    align
    flags := { base.flags with
      userLb := base.flags.userLb || old.flags.userLb
      userUb
      data := true } }

/-- The part of `opal_datatype_add` that only an added type with data goes through. -/
def addData (base old : Datatype) (count : Nat) (disp extent : Int) : Datatype :=
  let bounds := lbUbCont count disp old.lb old.ub extent
  let low := int64 (bounds.1 - int64 (old.lb - old.trueLb))
  let high := int64 (bounds.2 - int64 (old.ub - old.trueUb))
  let oldTrueUb := if base.nbElems = 0 then disp else base.trueUb
  let size : Nat := (base.size + count * old.size) % 2 ^ 64
  let contiguous := base.flags.contiguous && old.flags.contiguous &&
    int64 (disp + old.trueLb) == oldTrueUb && (int64 old.size == extent || count < 2)
  { base with
    size
    trueLb := if size ≠ 0 then min (min low high) base.trueLb else min low high
    trueUb := if size ≠ 0 then max (max low high) base.trueUb else max low high
    desc := base.desc ++ old.describe count disp extent
    loops := (base.loops + old.describedLoops count disp extent) % 2 ^ 32
    nbElems := (base.nbElems + count * old.nbElems) % 2 ^ 64
    flags := { base.flags with
      contiguous
      noGaps := contiguous && int64 size == int64 (base.ub - base.lb) } }

/-- Whether `OPAL_DATATYPE_COMPUTE_REQUIRED_ENTRIES` gives up on the added description. -/
def tooLong (old : Datatype) (count : Nat) : Bool :=
  !old.flags.predefined && count != 1 && decide (2 ^ 32 - 1 - 2 ≤ old.desc.length % 2 ^ 32)

/-- The extent an added type is repeated at: `-1` asks for its own. -/
def repeatExtent (old : Datatype) (extent : Int) : Int :=
  if extent = -1 then old.extent else extent

/-- `opal_datatype_add`; an error leaves the type as it was. -/
def add (base old : Datatype) (count : Nat) (disp extent : Int) : Datatype :=
  if count = 0 then base
  else
    match old.id with
    | .lb => base.addLb disp
    | .ub => base.addUb disp
    | _ =>
      let extent := old.repeatExtent extent
      if old.tooLong count then base
      else
        let bounded := base.addBounds old count disp extent
        if old.size = 0 then bounded else bounded.addData old count disp extent

end Datatype

end EduMpi.Ddt
