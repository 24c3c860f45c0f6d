import EduMpi.Ddt.ConvertorLaws
import EduMpi.Ddt.Pack

/-! Packing call by call goes through the stream once, whatever the iovecs are. -/

namespace EduMpi.Ddt

open Ints Strided List

/-- The contents of some bytes of the user's buffer. -/
def Memory.reads (mem : Memory) (base : Offset) (bytes : List Byte) : List UInt8 :=
  bytes.map fun b => mem (base + b.2)

section Reads

variable {mem : Memory} {base d : Offset} {n : Nat} {one two : List Byte}

@[simp]
theorem reads_nil : mem.reads base [] = [] := rfl

@[simp]
theorem reads_append : mem.reads base (one ++ two) = mem.reads base one ++ mem.reads base two :=
  map_append

@[simp]
theorem length_reads : (mem.reads base one).length = one.length :=
  length_map _

/-- Reading from an address on is reading a line of bytes. -/
theorem read_eq_reads : mem.read (base + d) n = mem.reads base (shift d (line n)) := by
  simp only [Memory.reads, Memory.read, line, copies, shift, map_flatMap, map_cons, map_nil,
    map_eq_flatMap (f := fun i : Nat => mem (base + d + (i : Offset)))]
  refine flatMap_congr fun i _ => ?_
  congr 2
  ring

end Reads

/-- A room after some bytes of the user's buffer were packed into it. -/
structure Packs (mem : Memory) (base : Offset) (before : Room) (bytes : List Byte) (after : Room) :
    Prop where
  out : after.out = before.out ++ mem.reads base bytes
  space : after.space + bytes.length = before.space
  addr : after.addr = before.addr + (bytes.length : Offset)

namespace Packs

variable {mem : Memory} {base : Offset} {r s t : Room} {one two : List Byte} {todo : List Byte}

theorem refl (r : Room) : Packs mem base r [] r := ⟨by simp, by simp, by simp⟩

theorem trans (first : Packs mem base r one s) (second : Packs mem base s two t) :
    Packs mem base r (one ++ two) t where
  out := by rw [second.out, first.out, reads_append, append_assoc]
  space := by
    have := first.space
    have := second.space
    rw [length_append]
    omega
  addr := by
    rw [second.addr, first.addr, length_append, Nat.cast_add]
    ring

/-- One copy into a room that is large enough. -/
theorem put {d : Offset} {n : Nat} (room : Room) (fits : n ≤ room.space) :
    Packs mem base room (shift d (line n)) (room.put mem (base + d) n) where
  out := by rw [Room.put, read_eq_reads]
  space := by
    rw [length_shift, length_line]
    exact Nat.sub_add_cancel fits
  addr := by rw [length_shift, length_line, Room.put]

end Packs

/-- Packing is a lawful move into the room. -/
theorem packChannel_lawful (mem : Memory) (base : Offset) :
    (packChannel mem).Lawful base (Packs mem base) where
  refl := .refl
  trans := .trans
  space packed := packed.space
  move fits := .put _ fits

/-- A pack walks over a description lawfully. -/
theorem packOps_lawful (arch : Arch) (mem : Memory) (base : Offset) :
    (packOps arch mem base).Lawful arch
      ((packChannel mem).Fits arch (packPartialBlocklen arch mem base) base) (Packs mem base) where
  refl := .refl
  trans := .trans
  data _ _ _ _ sound most safe := by
    have lawful := packChannel_lawful mem base
    exact lawful.transfer_steps sound most (lawful.restOfBlock_rests sound most) safe

namespace Convertor

section Block

variable {mem : Memory} {base d : Offset} {left : Nat}

/-- Copying one block takes the next bytes of a line. -/
theorem packBlock_spec (iov : List Iov) :
    ∃ n ≤ left,
      (packBlock mem (base + d) left iov).flatten = mem.reads base (shift d (line n)) := by
  induction iov generalizing d left with
  | nil => exact ⟨0, Nat.zero_le _, rfl⟩
  | cons v iov ih =>
    rw [packBlock]
    split
    · exact ⟨0, Nat.zero_le _, rfl⟩
    · -- The first iovec takes what it can, the others go on behind it.
      obtain ⟨n, le, rest⟩ := @ih (d + (min v.len left : Nat)) (left - min v.len left)
      refine ⟨min v.len left + n, by omega, ?_⟩
      rw [flatten_cons, add_assoc base d, rest, read_eq_reads, line_add, shift_append,
        reads_append, shift_shift, add_comm ((min v.len left : Nat) : Offset) d]

end Block

section Gaps

variable {mem : Memory} {c : Convertor} {row : Row} {room : Room}

/-- Inside a block the start of it only moves on. -/
theorem beginRow_eq (size : Nat) {n : Nat} (fewer : n < row.left) :
    beginRow row size n = row.advance n := by
  unfold beginRow
  split
  · rename_i none
    simp [Row.advance, none]
  · rw [if_neg (by omega)]

/-- One iovec goes on in the row; it stops only at the end of it. -/
theorem packGaps_step (positive : 0 < c.type.size) (sound : row.Sound c.type)
    (enough : room.space ≤ (row.todo c.type).length) :
    (packChannel mem).RowStep (Packs mem c.base) c.type (row.todo c.type) room
        (c.packGaps mem row room).1 (c.packGaps mem row room).2.1 ∧
      ((c.packGaps mem row room).2.2 = true → room.space = (row.todo c.type).length) := by
  have lawful := packChannel_lawful mem c.base
  rw [Row.length_todo] at enough ⊢
  unfold packGaps packRow
  by_cases prologue : c.type.size ≠ row.left ∧ row.left ≤ room.space
  · -- The block begun before is completed first.
    rw [if_pos prologue]
    have first : Packs mem c.base room (shift (row.place c.type) (line row.left))
        (room.put mem (c.base + row.place c.type) row.left) := .put room prologue.2
    by_cases last : row.blocks - 1 = 0
    · have ends : finishRow row c.type.size (c.type.extent : Offset)
          = ⟨0, row.inside + (row.left : Offset), 0, row.start + (c.type.extent : Offset)⟩ := by
        rw [finishRow, if_pos last]
      simp only [ends]
      rw [last] at enough ⊢
      refine ⟨⟨_, [], ?_, first, ?_, fun other => absurd rfl other⟩, fun _ => by omega⟩
      · rw [Row.todo, last, copies_zero, shift_nil]
      · show room.space - row.left = 0
        omega
    · -- The blocks behind it follow from the start of a block on.
      have next : finishRow row c.type.size (c.type.extent : Offset)
          = ⟨c.type.size, 0, row.blocks - 1, row.start + (c.type.extent : Offset)⟩ := by
        rw [finishRow, if_neg last]
      simp only [next, if_neg last]
      obtain ⟨next_sound, todo⟩ := Row.todo_finish (t := c.type) positive last
      obtain ⟨fewer, gone, left, split, moved, none, rest⟩ :=
        @Channel.Lawful.row_whole _ _ _ _ c.type _
          (room.put mem (c.base + row.place c.type) row.left) lawful positive next_sound rfl (by
            show room.space - row.left ≤ (row.blocks - 1) * c.type.size
            omega)
      refine ⟨⟨_, left, ?_, first.trans moved, none, ?_⟩, fun stop => absurd stop (by simp)⟩
      · rw [todo, split, append_assoc]
      · rw [← beginRow_eq c.type.size fewer] at rest
        exact rest
  · -- No block was begun, or it does not fit: the row is taken from where it stands.
    rw [if_neg prologue]
    refine ⟨?_, fun stop => absurd stop (by simp)⟩
    have either : row.left = c.type.size ∨ room.space < row.left := by
      by_contra neither
      rw [not_or, not_lt] at neither
      exact prologue ⟨fun same => neither.1 same.symm, neither.2⟩
    obtain ⟨fewer, step⟩ := lawful.row_step positive sound
      (by rw [Row.length_todo]; exact enough) either
    rw [← beginRow_eq c.type.size fewer] at step
    exact step

/-- The loop over the iovecs goes on in the row. -/
theorem packGapsIovs_spec (positive : 0 < c.type.size) (iov : List Iov) {row : Row}
    (sound : row.Sound c.type) {left : Nat} (all : left = (row.todo c.type).length) :
    ∃ gone rest, row.todo c.type = gone ++ rest ∧
      (c.packGapsIovs mem row left iov).2.1.flatten = mem.reads c.base gone ∧
      (c.packGapsIovs mem row left iov).2.2.2 = gone.length ∧
      (rest ≠ [] → (c.packGapsIovs mem row left iov).1.Sound c.type ∧
        rest = (c.packGapsIovs mem row left iov).1.todo c.type) := by
  -- By induction on the iovecs; the row that is left says where the next one starts.
  induction iov generalizing row left with
  | nil => exact ⟨[], _, rfl, rfl, rfl, fun _ => ⟨sound, rfl⟩⟩
  | cons v iov ih =>
    have some : left ≠ 0 := by
      have := sound.left_pos
      rw [all, Row.length_todo]
      omega
    have fits : min v.len left ≤ (row.todo c.type).length := all ▸ Nat.min_le_right _ _
    obtain ⟨⟨gone, rest, split, packed, none, next⟩, stops⟩ :=
      @packGaps_step mem c row ⟨min v.len left, v.addr, []⟩ positive sound fits
    unfold packGapsIovs
    simp only [if_neg some]
    generalize c.packGaps mem row ⟨min v.len left, v.addr, []⟩ = r at packed none next stops ⊢
    obtain ⟨row', room, stop⟩ := r
    dsimp only at packed none next stops ⊢
    have out : room.out = mem.reads c.base gone := by simpa using packed.out
    have taken : gone.length = min v.len left := by
      have := packed.space
      change room.space = 0 at none
      dsimp only at this
      omega
    have lengths := congrArg List.length split
    rw [length_append] at lengths
    by_cases ended : rest = []
    · -- Nothing is left: the loop stops here or at the next iovec.
      have zero : left - min v.len left = 0 := by
        rw [ended, length_nil] at lengths
        omega
      refine ⟨gone, [], by rw [split, ended], ?_, ?_, fun other => absurd rfl other⟩
      · cases stop with
        | true => simp [out]
        | false => cases iov <;> simp [packGapsIovs, zero, out]
      · cases stop with
        | true => simp [taken]
        | false => cases iov <;> simp [packGapsIovs, zero, taken]
    · -- There is more, so the loop has not stopped.
      have go : stop = false := by
        by_contra stopped
        have := stops (by simpa using stopped)
        exact ended (length_eq_zero_iff.mp (by omega))
      obtain ⟨next_sound, rest_eq⟩ := next ended
      obtain ⟨more, last, split', outs, total, final⟩ := @ih row' next_sound
        (left - min v.len left) (by rw [← rest_eq]; omega)
      simp only [go, Bool.false_eq_true, if_false]
      refine ⟨gone ++ more, last, ?_, ?_, ?_, final⟩
      · rw [split, rest_eq, split', append_assoc]
      · rw [flatten_cons, outs, out, reads_append]
      · rw [total, length_append, taken]

end Gaps

section Generic

variable {arch : Arch} {mem : Memory} {c : Convertor} {w : List Slot}

/-- The condition on every element that the iovecs of a call reach. -/
def PackIovsMeet (arch : Arch) (mem : Memory) (c : Convertor) : Cursor → List Iov → Prop
  | _, [] => True
  | cursor, v :: iov =>
    Walk.Meets c.type.optDesc (c.type.extent : Offset) (packOps arch mem c.base)
        ((packChannel mem).Fits arch (packPartialBlocklen arch mem c.base) c.base)
        (budget c.type.optDesc c.count) ⟨cursor, v.len, v.addr, []⟩ ∧
      ((c.packIov arch mem cursor v).2 ≠ .done →
        PackIovsMeet arch mem c (c.packIov arch mem cursor v).1.cursor iov)

instance decidablePackIovsMeet (arch : Arch) (mem : Memory) (c : Convertor) :
    ∀ cursor iov, Decidable (PackIovsMeet arch mem c cursor iov)
  | _, [] => isTrue trivial
  | cursor, v :: iov =>
    haveI := decidablePackIovsMeet arch mem c (c.packIov arch mem cursor v).1.cursor iov
    inferInstanceAs (Decidable (_ ∧ (_ → _)))

/-- The iovecs of a call take the next bytes of the stream. -/
theorem packIovs_spec (written : Written arch True c.type.optDesc w) (iov : List Iov)
    {cursor : Cursor} {todo : List Byte} {work : Nat}
    (place : At arch c.type.optDesc w (c.type.extent : Offset) cursor todo work)
    (enough : work ≤ budget c.type.optDesc c.count) (meets : PackIovsMeet arch mem c cursor iov) :
    ∃ gone left, todo = gone ++ left ∧
      (c.packIovs arch mem cursor iov).2.1.flatten = mem.reads c.base gone ∧
      (c.packIovs arch mem cursor iov).2.2 = gone.length ∧
      (left ≠ [] → ∃ less ≤ budget c.type.optDesc c.count,
        At arch c.type.optDesc w (c.type.extent : Offset) (c.packIovs arch mem cursor iov).1 left
          less) := by
  -- By induction on the iovecs; each one is filled by a walk of its own.
  induction iov generalizing cursor todo work with
  | nil => exact ⟨[], todo, rfl, rfl, rfl, fun _ => ⟨work, enough, place⟩⟩
  | cons v iov ih =>
    obtain ⟨first, later⟩ := meets
    obtain ⟨stopped, stands⟩ := Walk.run_stands (packOps_lawful arch mem c.base) written
      (x := ⟨cursor, v.len, v.addr, []⟩) place enough first
    unfold packIovs
    unfold packIov at later ⊢
    generalize Walk.run c.type.optDesc (c.type.extent : Offset) (packOps arch mem c.base)
      (budget c.type.optDesc c.count) ⟨cursor, v.len, v.addr, []⟩ = ran at stopped stands later ⊢
    obtain ⟨x, verdict⟩ := ran
    obtain ⟨gone, left, split, packed, rest⟩ := stands
    have out : x.store.out = mem.reads c.base gone := by simpa using packed.out
    have taken : v.len - x.store.space = gone.length := by
      have := packed.space
      dsimp only at this
      omega
    cases verdict with
    | going => exact absurd rfl stopped
    | done =>
      -- The end of the data: nothing is left.
      refine ⟨gone, [], by rw [split, rest], ?_, ?_, fun other => absurd rfl other⟩
      · simp [out]
      · simp [taken]
    | full =>
      obtain ⟨less, le, place⟩ := rest
      obtain ⟨more, last, split', outs, total, final⟩ := ih place (by omega) (later (by simp))
      simp only [reduceCtorEq, if_false]
      refine ⟨gone ++ more, last, ?_, ?_, ?_, final⟩
      · rw [split, split', append_assoc]
      · rw [flatten_cons, outs, out, reads_append]
      · rw [total, taken, length_append]

end Generic

section Calls

variable {arch : Arch} {mem : Memory} {c : Convertor} {w : List Slot} {todo : List Byte}

/-- What a call must have done with the bytes before it. -/
structure Goes (arch : Arch) (mem : Memory) (w : List Slot) (c : Convertor)
    (gone left : List Byte) (r : Convertor × Packed) : Prop where
  out : r.2.out.flatten = mem.reads c.base gone
  maxData : r.2.maxData = gone.length
  done : r.2.done = true ↔ left = []
  base : r.1.base = c.base
  stands : Stands arch w r.1 left

/-- What a call leaves behind that took the next bytes: only the count, the stack and the flag are
new. -/
theorem Stands.goes (stands : Stands arch w c todo) {gone left : List Byte}
    (split : todo = gone ++ left) {out : List (List UInt8)} {stack : List Frame} {done : Bool}
    (flat : out.flatten = mem.reads c.base gone)
    (ends : done = true ↔ c.converted + gone.length = c.localSize)
    (ready : left ≠ [] → Ready arch w
      { c with converted := c.converted + gone.length, stack := stack, completed := done } left)
    (outSize : Nat) : Goes arch mem w c gone left
      ({ c with converted := c.converted + gone.length, stack := stack, completed := done },
        ⟨out, outSize, gone.length, done⟩) := by
  have length := stands.length
  rw [split] at length
  have last := ends.trans (completes_iff length)
  rw [length_append] at length
  exact ⟨flat, rfl, last, rfl, stands.written, by dsimp only; omega, last, ready⟩

section Block

variable (stands : Stands arch w c todo)
  (place : todo = shift ((c.type.trueLb : Offset) + (c.converted : Offset))
    (line (c.localSize - c.converted))) (iov : List Iov)

include stands place

/-- A call that copies from one block. -/
theorem packBlock_goes {src : Offset}
    (here : src = c.base + ((c.type.trueLb : Offset) + (c.converted : Offset)))
    (stack : Nat → List Frame)
    (ready : ∀ n : Nat, Ready arch w
      { c with
        converted := c.converted + n
        stack := stack n
        completed := c.converted + n == c.localSize }
      (shift ((c.type.trueLb : Offset) + ((c.converted + n : Nat) : Offset))
        (line (c.localSize - (c.converted + n))))) :
    ∃ gone left, todo = gone ++ left ∧ Goes arch mem w c gone left
      (let out := packBlock mem src (c.localSize - c.converted) iov
      let total := (out.map List.length).sum
      let done := c.converted + total == c.localSize
      ({ c with converted := c.converted + total, stack := stack total, completed := done },
        ⟨out, out.length, total, done⟩)) := by
  subst here
  obtain ⟨n, few, out⟩ := @packBlock_spec mem c.base
    ((c.type.trueLb : Offset) + (c.converted : Offset)) (c.localSize - c.converted) iov
  have split := place.trans (shift_line_split few)
  have total : ((packBlock mem (c.base + ((c.type.trueLb : Offset) + (c.converted : Offset)))
      (c.localSize - c.converted) iov).map List.length).sum
        = (shift ((c.type.trueLb : Offset) + (c.converted : Offset)) (line n)).length := by
    rw [← length_flatten, out, length_reads]
  refine ⟨_, _, split, ?_⟩
  dsimp only
  rw [total]
  refine stands.goes split out (by simp) (fun _ => ?_) _
  -- The next byte is as far on as bytes were taken.
  rw [length_shift, length_line]
  have next := ready n
  rwa [Nat.cast_add, ← add_assoc, ← Nat.sub_sub] at next

theorem packNoOp_goes (noOp : c.noOp = true) :
    ∃ gone left, todo = gone ++ left ∧ Goes arch mem w c gone left (c.packNoOp mem iov) :=
  packBlock_goes stands place iov (by ring) (fun _ => c.stack) fun _ => .noOp noOp

theorem packHomogeneousContig_goes (pending : todo ≠ []) {top bottom : Frame}
    (noOp : c.noOp = false) (contiguous : c.type.flags.contiguous = true)
    (gapless : c.type.extent = int64 c.type.size) (stack : c.stack = [top, bottom])
    (counted : bottom.disp + top.disp = (c.converted : Offset)) :
    ∃ gone left, todo = gone ++ left ∧
      Goes arch mem w c gone left (c.packHomogeneousContig mem iov) := by
  have open_ : c.completed = false := by
    simpa using mt stands.completed.mp pending
  simp only [packHomogeneousContig, stack, open_]
  -- The stack counts the bytes that were taken.
  refine packBlock_goes stands place iov (by rw [← counted]; ring)
    (fun n => [top, { bottom with disp := bottom.disp + (n : Offset) }]) fun n =>
    .contig _ _ noOp contiguous gapless rfl ?_
  rw [Nat.cast_add, ← counted]
  ring

end Block

theorem packHomogeneousContigWithGaps_goes (stands : Stands arch w c todo) (pending : todo ≠ [])
    {top bottom : Frame} (noOp : c.noOp = false) (contiguous : c.type.flags.contiguous = true)
    (gaps : ¬(c.type.extent = int64 c.type.size ∨ c.count ≤ 1)) (stack : c.stack = [top, bottom])
    (sound : (Row.ofStack arch top bottom).Sound c.type)
    (place : todo = (Row.ofStack arch top bottom).todo c.type) (iov : List Iov) :
    ∃ gone left, todo = gone ++ left ∧
      Goes arch mem w c gone left (c.packHomogeneousContigWithGaps arch mem iov) := by
  have positive : 0 < c.type.size := sound.left_pos.trans_le sound.left_le
  have length := stands.length
  obtain ⟨gone, left, split, out, total, next⟩ := @packGapsIovs_spec mem c positive iov _ sound
    (c.localSize - c.converted) (by rw [← place]; omega)
  rw [← place] at split
  have open_ : c.completed = false := by
    simpa using mt stands.completed.mp pending
  refine ⟨gone, left, split, ?_⟩
  simp only [packHomogeneousContigWithGaps, stack, total, open_, Bool.false_or]
  refine stands.goes split out (by simp) (fun more => ?_) _
  -- The new stack stands for the row that is left, counted in bytes.
  obtain ⟨row_sound, left_eq⟩ := next more
  generalize (c.packGapsIovs mem (.ofStack arch top bottom) (c.localSize - c.converted) iov).1
    = row at row_sound left_eq ⊢
  have same : Row.ofStack arch
      { top with type := some .uint1, count := row.left, disp := row.inside }
      { bottom with count := row.blocks, disp := row.start } = row := by
    simp [Row.ofStack, arch.size_uint1]
  rw [← same] at left_eq row_sound
  rw [left_eq]
  exact .gaps _ _ noOp contiguous gaps rfl row_sound

theorem genericSimplePack_goes (stands : Stands arch w c todo) (noOp : c.noOp = false)
    (apart : c.type.flags.contiguous = false) {work : Nat}
    (enough : work ≤ budget c.type.optDesc c.count)
    (place : At arch c.type.optDesc w (c.type.extent : Offset) (Cursor.load c.stack) todo work)
    {iov : List Iov} (meets : PackIovsMeet arch mem c (Cursor.load c.stack) iov)
    (open_ : c.completed = false) :
    ∃ gone left, todo = gone ++ left ∧
      Goes arch mem w c gone left (c.genericSimplePack arch mem iov) := by
  obtain ⟨gone, left, split, out, total, next⟩ :=
    packIovs_spec stands.written iov place enough meets
  have length := stands.length
  rw [split] at length
  refine ⟨gone, left, split, ?_⟩
  simp only [genericSimplePack, total]
  -- The last byte of all, or the stack keeps where to go on.
  by_cases last : c.converted + gone.length = c.localSize
  · rw [if_pos last]
    exact stands.goes split out (by simp [last])
      (fun more => absurd ((completes_iff length).mp last) more) _
  · rw [if_neg last, ← open_]
    refine stands.goes split out (by simp [last, open_]) (fun more => ?_) _
    -- The position is taken back from the stack as it was put there.
    obtain ⟨less, le, place⟩ := next more
    exact .generic noOp apart le place

end Calls

/-- The condition on a call: only the walk over a description with gaps has one. -/
def PackMeets (arch : Arch) (mem : Memory) (c : Convertor) (iov : List Iov) : Prop :=
  c.completed = false → c.noOp = false → c.type.flags.contiguous = false →
    PackIovsMeet arch mem c (Cursor.load c.stack) iov

instance (arch : Arch) (mem : Memory) (c : Convertor) (iov : List Iov) :
    Decidable (PackMeets arch mem c iov) :=
  inferInstanceAs (Decidable (_ → _ → _ → _))

/-- One call goes on in the stream. -/
theorem pack_goes {arch : Arch} {mem : Memory} {c : Convertor} {w : List Slot}
    (stands : Stands arch w c todo) {iov : List Iov} (meets : PackMeets arch mem c iov) :
    ∃ gone left, todo = gone ++ left ∧ Goes arch mem w c gone left (c.pack arch mem iov) := by
  unfold pack
  by_cases finished : c.completed = true
  · -- A complete convertor reports that there is nothing to do.
    rw [if_pos finished]
    have none := stands.completed.mp finished
    exact ⟨[], todo, rfl, rfl, rfl, by simp [none], rfl, stands⟩
  have open_ : c.completed = false := by simpa using finished
  have pending : todo ≠ [] := mt stands.completed.mpr finished
  rw [if_neg finished]
  have ready := stands.ready pending
  -- Each of the four functions starts from the state that it expects.
  cases ready with
  | noOp noOp =>
    rw [if_pos noOp]
    exact packNoOp_goes stands rfl iov noOp
  | contig top bottom noOp contiguous gapless stack counted =>
    rw [if_neg (by simp [noOp]), if_pos contiguous, if_pos (.inl gapless)]
    exact packHomogeneousContig_goes stands rfl iov pending noOp contiguous gapless stack counted
  | gaps top bottom noOp contiguous gaps stack sound =>
    rw [if_neg (by simp [noOp]), if_pos contiguous, if_neg gaps]
    exact packHomogeneousContigWithGaps_goes stands pending noOp contiguous gaps stack sound rfl iov
  | generic noOp apart enough place =>
    rw [if_neg (by simp [noOp]), if_neg (by simp [apart])]
    exact genericSimplePack_goes stands noOp apart enough place (meets open_ noOp apart) open_

/-- The condition on every call of a sequence. -/
def PacksMeet (arch : Arch) (mem : Memory) : Convertor → List (List Iov) → Prop
  | _, [] => True
  | c, iov :: calls =>
    PackMeets arch mem c iov ∧ PacksMeet arch mem (c.pack arch mem iov).1 calls

instance decidablePacksMeet (arch : Arch) (mem : Memory) :
    ∀ c calls, Decidable (PacksMeet arch mem c calls)
  | _, [] => isTrue trivial
  | c, iov :: calls =>
    haveI := decidablePacksMeet arch mem (c.pack arch mem iov).1 calls
    inferInstanceAs (Decidable (_ ∧ _))

/-- A sequence of calls goes through the stream. -/
theorem packs_go {arch : Arch} {mem : Memory} {w : List Slot} (calls : List (List Iov))
    {c : Convertor} (stands : Stands arch w c todo) (meets : PacksMeet arch mem c calls) :
    ∃ gone left, todo = gone ++ left ∧ Stands arch w (c.packs arch mem calls).1 left ∧
      (c.packs arch mem calls).2.flatMap (fun p => p.out.flatten) = mem.reads c.base gone ∧
      ((c.packs arch mem calls).2.map Packed.maxData).sum = gone.length ∧
      ∀ last, (c.packs arch mem calls).2.getLast? = some last → (last.done = true ↔ left = []) := by
  induction calls generalizing c todo with
  | nil => exact ⟨[], todo, rfl, stands, rfl, rfl, by simp [packs]⟩
  | cons iov calls ih =>
    obtain ⟨first, later⟩ := meets
    obtain ⟨gone, left, split, goes⟩ := pack_goes stands first
    obtain ⟨more, rest, split', after, out, total, ends⟩ :=
      ih goes.stands later
    refine ⟨gone ++ more, rest, by rw [split, split', append_assoc], after, ?_, ?_, ?_⟩
    · rw [packs]
      rw [flatMap_cons, goes.out, out, goes.base, reads_append]
    · rw [length_append, ← total, ← goes.maxData]
      rfl
    · -- The last call of a longer sequence is the last one of the rest, if there is one.
      intro last is_last
      cases calls with
      | nil =>
        have same : (c.pack arch mem iov).2 = last := by simpa [packs] using is_last
        have empty : more = [] ∧ rest = left := by
          have none : more = [] := length_eq_zero_iff.mp (by rw [← total]; rfl)
          exact ⟨none, by rw [split', none, nil_append]⟩
        rw [← same, empty.2]
        exact goes.done
      | cons next others => exact ends last (by simpa [packs] using is_last)

end Convertor

/-- Whatever the iovecs of the calls are, what they report as packed is the front of the stream; the
convertor is complete exactly when that is all of it, and the last call says whether it is. -/
theorem packs_follow_stream {arch : Arch} {mem : Memory} {t : Datatype} {count : Nat}
    {base : Offset} {calls : List (List Iov)} (committed : Committed arch t)
    (small : count * t.size < 2 ^ 64) (layout : t.LayoutFits arch count)
    (meets : Convertor.PacksMeet arch mem (.prepare true t count base) calls) :
    let r := (Convertor.prepare true t count base).packs arch mem calls
    r.2.flatMap (fun p => p.out.flatten)
        = mem.reads base ((stream arch t count).take (r.2.map Packed.maxData).sum) ∧
      (r.1.completed = true ↔ (r.2.map Packed.maxData).sum = (stream arch t count).length) ∧
      ∀ last, r.2.getLast? = some last →
        (last.done = true ↔ (r.2.map Packed.maxData).sum = (stream arch t count).length) := by
  intro r
  obtain ⟨w, good⟩ := committed.wellCommitted
  have stands := Convertor.prepare_stands good true base small layout
  obtain ⟨gone, left, split, after, out, total, ends⟩ :=
    Convertor.packs_go calls stands meets
  -- What is left is empty exactly when as many bytes were packed as there are.
  have all : left = [] ↔ gone.length = (stream arch t count).length := by
    rw [split, length_append, ← length_eq_zero_iff]
    omega
  refine ⟨?_, ?_, fun last is_last => ?_⟩
  · rw [out, total, split, take_left, Convertor.prepare_base]
  · rw [total, after.completed, all]
  · rw [total, ends last is_last, all]

/-- Numbers at a distance that is a whole number of them. -/
def everySecondInt : Datatype :=
  (Datatype.construct.add (.ofBasic lp64 .int4) 3 0 8).commit lp64

theorem everySecondInt_committed : Committed lp64 everySecondInt := by
  refine .of_pass (.added 3 0 8 .constructed (.basic .int4 ?_) rfl ?_ ?_ ?_) ?_ ?_ <;>
    decide +kernel

/-- The memory in which every byte is the low byte of its own address. -/
def ownAddress : Memory := fun addr => UInt8.ofNat addr.toNat

/-- Three numbers packed in segments that cut a number, leave nothing and end early. -/
theorem everySecondInt_packs :
    ((Convertor.prepare true everySecondInt 2 0).packs lp64 ownAddress
        [[⟨64, 6⟩, ⟨128, 0⟩], [⟨64, 30⟩]]).2.flatMap (fun p => p.out.flatten)
      = ownAddress.reads 0 ((stream lp64 everySecondInt 2).take 24) := by
  have layout : everySecondInt.LayoutFits lp64 2 := by
    refine ⟨?_, ?_, ?_⟩ <;> decide +kernel
  have follows := @packs_follow_stream lp64 ownAddress everySecondInt 2 0
    [[⟨64, 6⟩, ⟨128, 0⟩], [⟨64, 30⟩]] everySecondInt_committed (by decide +kernel) layout
    (by decide +kernel)
  exact follows.1

/-- Numbers at a distance that is no whole number of them. -/
def sixBytesApart : Datatype :=
  (Datatype.construct.add (.ofBasic lp64 .int4) 3 0 6).commit lp64

theorem sixBytesApart_committed : Committed lp64 sixBytesApart := by
  refine .of_pass (.added 3 0 6 .constructed (.basic .int4 ?_) rfl ?_ ?_ ?_) ?_ ?_ <;>
    decide +kernel

/-- Packed number by number, the typed copy goes on four instead of six bytes. -/
theorem sixBytesApart_loses_stride :
    Committed lp64 sixBytesApart ∧
      ((Convertor.prepare true sixBytesApart 1 0).packs lp64 ownAddress
          [[⟨64, 4⟩], [⟨64, 4⟩]]).2.flatMap (fun p => p.out.flatten)
        = [0, 1, 2, 3, 4, 5, 6, 7] ∧
      ownAddress.reads 0 ((stream lp64 sixBytesApart 1).take 8) = [0, 1, 2, 3, 6, 7, 8, 9] :=
  ⟨sixBytesApart_committed, by decide +kernel, by decide +kernel⟩

end EduMpi.Ddt
