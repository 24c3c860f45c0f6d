import EduMpi.Ddt.Committed
import EduMpi.Ddt.TransferLaws

/-! What the state of a convertor says about the part of the stream that is still to come. -/

namespace EduMpi.Ddt

open Ints Strided

namespace Datatype

/-- The type is one block of its size from its true lower bound on. -/
def OneBlock (arch : Arch) (t : Datatype) : Prop :=
  bytesOf arch (t.typeMap arch) = shift (t.trueLb : Offset) (line t.size)

instance (arch : Arch) (t : Datatype) : Decidable (t.OneBlock arch) :=
  inferInstanceAs (Decidable (_ = _))

/-- The bytes the first record of the optimized description counts. -/
def firstBytes (arch : Arch) (t : Datatype) : Nat :=
  freshCount (entryAt t.optDesc 0) * ((entryAt t.optDesc 0).type.map arch.size).getD 0

/-- The flags of the type say the truth about its layout: one block when it is flagged as
contiguous, blocks without a gap between them when it is flagged so, and a single record when the
copies of the block are to be counted by it. -/
structure LayoutFits (arch : Arch) (t : Datatype) (count : Nat) : Prop where
  block : t.flags.noGaps = true ∨ t.flags.contiguous = true → t.OneBlock arch
  gapless : t.flags.noGaps = true → 2 ≤ count → (t.extent : Offset) = (t.size : Offset)
  single : t.flags.noGaps = false → t.flags.contiguous = true → 2 ≤ count →
    t.extent ≠ int64 t.size → t.firstBytes arch = t.size

end Datatype

namespace Convertor

/-- The state of a convertor before some bytes, for each of the functions it packs with. -/
inductive Ready (arch : Arch) (w : List Slot) (c : Convertor) : List Byte → Prop where
  | noOp : c.noOp = true →
      Ready arch w c (shift ((c.type.trueLb : Offset) + (c.converted : Offset))
        (line (c.localSize - c.converted)))
  | contig (top bottom : Frame) : c.noOp = false → c.type.flags.contiguous = true →
      c.type.extent = int64 c.type.size → c.stack = [top, bottom] →
      bottom.disp + top.disp = (c.converted : Offset) →
      Ready arch w c (shift ((c.type.trueLb : Offset) + (c.converted : Offset))
        (line (c.localSize - c.converted)))
  | gaps (top bottom : Frame) : c.noOp = false → c.type.flags.contiguous = true →
      ¬(c.type.extent = int64 c.type.size ∨ c.count ≤ 1) → c.stack = [top, bottom] →
      (Row.ofStack arch top bottom).Sound c.type →
      Ready arch w c ((Row.ofStack arch top bottom).todo c.type)
  | generic {todo : List Byte} {work : Nat} : c.noOp = false → c.type.flags.contiguous = false →
      work ≤ budget c.type.optDesc c.count →
      At arch c.type.optDesc w (c.type.extent : Offset) (Cursor.load c.stack) todo work →
      Ready arch w c todo

/-- A convertor before some bytes of its stream, or complete. -/
structure Stands (arch : Arch) (w : List Slot) (c : Convertor) (todo : List Byte) : Prop where
  written : Written arch True c.type.optDesc w
  length : todo.length + c.converted = c.localSize
  completed : c.completed = true ↔ todo = []
  ready : todo ≠ [] → Ready arch w c todo

/-- After a call that took some bytes, exactly the complete convertor has none left. -/
theorem completes_iff {gone left : List Byte} {n size : Nat}
    (length : (gone ++ left).length + n = size) : n + gone.length = size ↔ left = [] := by
  rw [List.length_append] at length
  rw [← List.length_eq_zero_iff]
  omega

section Start

variable {arch : Arch} {t : Datatype} {w : List Slot} {count : Nat}

@[simp]
theorem prepare_base {send : Bool} {base : Offset} : (prepare send t count base).base = base := by
  unfold prepare
  split
  · rfl
  · split <;> rfl

/-- Blocks of the size of a type without a gap between them are one block. -/
theorem stream_oneBlock (block : t.OneBlock arch)
    (gapless : 2 ≤ count → (t.extent : Offset) = (t.size : Offset)) :
    stream arch t count = shift (t.trueLb : Offset) (line (count * t.size)) := by
  rw [stream, block, ← shift_copies]
  rcases Nat.lt_or_ge count 2 with few | several
  · -- Without a second copy the extent does not matter.
    interval_cases count <;> simp
  · rw [copies_line (gapless several)]

/-- A fresh convertor stands before the whole stream. -/
theorem prepare_stands (good : WellCommitted arch t w) (send : Bool) (base : Offset)
    (small : count * t.size < 2 ^ 64) (layout : t.LayoutFits arch count) :
    Stands arch w (prepare send t count base) (stream arch t count) := by
  have length := good.length_stream count
  unfold prepare
  by_cases empty : count = 0 ∨ t.size = 0
  · have none : stream arch t count = [] := by
      rw [← List.length_eq_zero_iff, length]
      exact Nat.mul_eq_zero.mpr empty
    rw [if_pos empty, none]
    exact ⟨good.written, rfl, by simp, fun more => absurd rfl more⟩
  rw [if_neg empty, Nat.mod_eq_of_lt small]
  have positive : 0 < count * t.size := by
    rw [Nat.pos_iff_ne_zero, Ne, Nat.mul_eq_zero]
    exact empty
  have filled : stream arch t count ≠ [] := by
    rw [Ne, ← List.length_eq_zero_iff, length]
    exact positive.ne'
  by_cases noOp : t.flags.noGaps = true ∨ (t.flags.contiguous = true ∧ count = 1)
  · -- One block: the flags say that the copies have no gap between them.
    have block := layout.block (noOp.imp_right And.left)
    have one := @stream_oneBlock arch t count block fun several => by
      rcases noOp with noGaps | ⟨_, single⟩
      · exact layout.gapless noGaps several
      · omega
    rw [if_pos noOp]
    refine ⟨good.written, by rw [length]; rfl, by simpa using filled, fun _ => ?_⟩
    rw [one]
    simpa using @Ready.noOp arch w ⟨t, count, base, send, count * t.size, false, true, 0, 0, []⟩ rfl
  rw [if_neg noOp]
  have gaps : t.flags.noGaps = false := by simpa using fun noGaps => noOp (.inl noGaps)
  refine ⟨good.written, by rw [length]; rfl, by simpa [createStackAtBegining] using filled,
    fun _ => ?_⟩
  cases contiguous : t.flags.contiguous with
  | true =>
    have several : 2 ≤ count := by
      have : count ≠ 1 := fun one => noOp (.inr ⟨contiguous, one⟩)
      omega
    have block := layout.block (.inr contiguous)
    by_cases adjacent : t.extent = int64 t.size
    · have one := @stream_oneBlock arch t count block fun _ => by
        rw [adjacent, cast_int64, Int.cast_natCast]
      rw [one]
      simpa [createStackAtBegining] using @Ready.contig arch w
        (createStackAtBegining ⟨t, count, base, send, count * t.size, false, false, 0, 0, []⟩)
        _ _ rfl contiguous adjacent rfl (by simp [createStackAtBegining])
    · -- The first record counts one block, the stack counts the blocks.
      have first := layout.single gaps contiguous several adjacent
      have row : Row.ofStack arch
          ⟨some 0, (entryAt t.optDesc 0).type, freshCount (entryAt t.optDesc 0), 0⟩
          ⟨none, none, count, 0⟩ = ⟨t.size, 0, count, 0⟩ := by
        rw [← first]
        rfl
      have sound : Row.Sound t ⟨t.size, 0, count, 0⟩ :=
        ⟨by dsimp only; omega, le_rfl, by dsimp only; omega, by simp⟩
      have todo := @Row.todo_start t ⟨t.size, 0, count, 0⟩ sound.blocks_pos rfl rfl
      have place : stream arch t count = Row.todo t (Row.ofStack arch
          ⟨some 0, (entryAt t.optDesc 0).type, freshCount (entryAt t.optDesc 0), 0⟩
          ⟨none, none, count, 0⟩) := by
        rw [row, todo, stream, block, shift_zero]
      rw [place]
      refine .gaps _ _ rfl contiguous ?_ rfl (row.symm ▸ sound)
      rintro (same | few)
      · exact adjacent same
      · have : count ≤ 1 := few
        omega
  | false =>
    obtain ⟨work, enough, place⟩ := good.at_start (by omega) none
      ⟨[⟨none, none, count, 0⟩], 0, 0, 0⟩ rfl
    exact .generic rfl contiguous enough place

end Start

end Convertor

end EduMpi.Ddt
