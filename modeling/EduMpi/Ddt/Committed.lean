import EduMpi.Ddt.CommitLaws
import EduMpi.Ddt.Convertor
import EduMpi.Ddt.WalkLaws

/-! Committed types, and the place at which a convertor over one of them stands. -/

namespace EduMpi.Ddt

open Ints Strided

/-- The types that may be used in communication: predefined ones, types committed by a pass that
lost nothing, and copies of these with other bounds. -/
inductive Committed (arch : Arch) : Datatype → Prop where
  | basic (b : Basic) : arch.size b < 2 ^ 64 → Committed arch (.ofBasic arch b)
  | commit {t} : Added arch t → t.flags.committed = false → PassFits arch t.desc →
      Committed arch (t.commit arch)
  | cloned {t} : Committed arch t → Committed arch t.clone
  | resized {t} (lb extent : Int) : Committed arch t → Committed arch (t.resize lb extent)

/-- A type whose bytes the pass is seen to keep. -/
theorem Committed.of_pass {arch : Arch} {t : Datatype} (added : Added arch t)
    (fresh : t.flags.committed = false)
    (kept : byteOffsets arch (optimizeShort arch t.desc).out = byteOffsets arch t.desc) :
    Committed arch (t.commit arch) := by
  obtain ⟨m, good⟩ := added.wellAdded
  exact .commit added fresh
    ((optimizeShort_keeps_iff good.shaped (good.size ▸ good.size_lt)).mp kept)

/-- What holds of every committed type: its optimized description has the bytes of its type map. -/
structure WellCommitted (arch : Arch) (t : Datatype) (w : List Slot) : Prop where
  written : Written arch True t.optDesc w
  bytes : bytesOf arch w = bytesOf arch (t.typeMap arch)
  size : t.size = (bytesOf arch w).length
  size_lt : t.size < 2 ^ 64

theorem Committed.wellCommitted {arch : Arch} {t : Datatype} (committed : Committed arch t) :
    ∃ w, WellCommitted arch t w := by
  induction committed with
  | basic b fits =>
    -- One element of one block, in both descriptions.
    have sound : Elem.Sound ⟨b, 1, 1, arch.size b, 0⟩ :=
      ⟨Nat.one_pos, Nat.one_lt_two_pow (by decide), Nat.one_pos⟩
    have map : (Datatype.ofBasic arch b).typeMap arch
        = Elem.slots arch ⟨b, 1, 1, arch.size b, 0⟩ := (Denotes.single arch _).expand_eq
    refine ⟨_, .single sound, by rw [map], ?_, fits⟩
    simp [Datatype.ofBasic, Elem.length_bytes, Elem.block]
  | @commit t added fresh pass =>
    obtain ⟨m, good⟩ := added.wellAdded
    obtain ⟨desc, size, -⟩ := @commit_cases arch t
    have map : (t.commit arch).typeMap arch = m := by
      rw [Datatype.typeMap, desc]
      exact good.shaped.denotes.expand_eq
    by_cases empty : t.desc = []
    · have nothing : m = [] := (empty ▸ good.shaped.denotes).unique .nil
      have none : (t.commit arch).optDesc = [] := by simp [Datatype.commit, fresh, empty]
      refine ⟨[], none ▸ .nil, by rw [map, nothing], ?_, size ▸ good.size_lt⟩
      rw [size, good.size, nothing]
    · obtain ⟨w, written, kept⟩ := optimizeShort_spec good.shaped (good.size ▸ good.size_lt)
      have same := kept.mpr pass
      refine ⟨w, ?_, by rw [map, same], by rw [size, good.size, same], size ▸ good.size_lt⟩
      rw [commit_optDesc fresh empty]
      exact written.mono fun _ => pass
  | cloned _ ih | resized lb extent _ ih =>
    obtain ⟨w, good⟩ := ih
    exact ⟨w, good.written, good.bytes, good.size, good.size_lt⟩

section Start

variable {arch : Arch} {t : Datatype} {w : List Slot} {count : Nat}

theorem WellCommitted.length_stream (good : WellCommitted arch t w) (count : Nat) :
    (stream arch t count).length = count * t.size := by
  rw [stream, length_copies, ← good.bytes, ← good.size]

/-- A walk begins with the whole stream before it. -/
theorem WellCommitted.at_start (good : WellCommitted arch t w) (some : 0 < count)
    (type : Option Basic) (c : Cursor) (frames : c.frames = [⟨none, type, count, 0⟩]) :
    ∃ work ≤ budget t.optDesc count, At arch t.optDesc w (t.extent : Offset)
      (c.moveTo t.optDesc 0) (stream arch t count) work := by
  have outer : Outer arch t.optDesc w (t.extent : Offset) [⟨none, type, count, 0⟩] _ _ _ :=
    .bottom type count 0 some
  have start : t.optDesc.drop 0 = t.optDesc ++ t.optDesc.drop t.optDesc.length := by simp
  have place := At.of_rest outer good.written start c frames
  obtain ⟨more, rfl⟩ : ∃ more, count = more + 1 := ⟨count - 1, by omega⟩
  refine ⟨visits t.optDesc + (more * (visits t.optDesc + 1) + 1), ?_, ?_⟩
  · rw [budget, Nat.succ_mul]
    omega
  · -- The first copy and the copies behind it are the stream.
    rw [stream, copies_succ_left, ← good.bytes]
    simpa [baseOf] using place

end Start

end EduMpi.Ddt
