import EduMpi.Ddt.Optimize
import EduMpi.Ddt.Shape

/-! What the pass does to the bytes of the elements it fuses. -/

namespace EduMpi.Ddt

open Ints Strided List

namespace Elem

variable {arch : Arch} {e last current merged : Elem}

/-- A block is at least as long as it has elements. -/
theorem blocklen_le_block (arch : Arch) (e : Elem) : e.blocklen ≤ e.block arch :=
  Nat.le_mul_of_pos_right _ (arch.size_pos _)

theorem Sound.block_pos (sound : e.Sound) : 0 < e.block arch :=
  Nat.mul_pos sound.blocklen_pos (arch.size_pos _)

theorem Sound.block_le (sound : e.Sound) (arch : Arch) : e.block arch ≤ (e.bytes arch).length := by
  rw [length_bytes]
  exact Nat.le_mul_of_pos_left _ sound.count_pos

theorem block_create (small : e.count * e.block arch < 2 ^ 64)
    (gapless : e.extent = int64 (e.block arch)) :
    (e.create arch).block arch = e.count * e.block arch := by
  -- The length of the joined block is at most its number of bytes.
  have fits : e.blocklen * e.count < 2 ^ 64 :=
    lt_of_le_of_lt (by
      rw [Nat.mul_comm]
      exact Nat.mul_le_mul_left _ (e.blocklen_le_block arch)) small
  rw [create, if_pos gapless]
  simp only [block, Nat.mod_eq_of_lt fits]
  ring

/-- Closing up blocks without a gap keeps the bytes. -/
theorem bytes_create (small : e.count * e.block arch < 2 ^ 64) :
    (e.create arch).bytes arch = e.bytes arch := by
  by_cases gapless : e.extent = int64 (e.block arch)
  · have adjacent : (e.extent : Offset) = (e.block arch : Offset) := by
      rw [gapless, cast_int64, Int.cast_natCast]
    rw [bytes, bytes, block_create small gapless, create, if_pos gapless, copies_one,
      copies_line adjacent]
  · rw [create, if_neg gapless]

theorem Sound.create (sound : e.Sound) (small : e.count * e.block arch < 2 ^ 64) :
    (e.create arch).Sound := by
  by_cases gapless : e.extent = int64 (e.block arch)
  · have positive : 0 < (e.create arch).block arch := by
      rw [block_create small gapless]
      exact Nat.mul_pos sound.count_pos sound.block_pos
    have blocklen : 0 < (e.create arch).blocklen := Nat.pos_of_mul_pos_right positive
    refine ⟨?_, ?_, blocklen⟩
    · rw [Elem.create, if_pos gapless]
      exact Nat.one_pos
    · rw [Elem.create, if_pos gapless]
      exact Nat.one_lt_two_pow (by decide)
  · rwa [Elem.create, if_neg gapless]

theorem block_retype (small : e.block arch < 2 ^ 64) :
    (e.retype arch).block arch = e.block arch := by
  rw [retype, block, arch.size_uint1, Nat.mul_one, Nat.mod_eq_of_lt small]

/-- The pending element as `merge?` looks at it: at most its type changes. -/
theorem retyped_eq (current : Elem) (small : last.block arch < 2 ^ 64) :
    ∃ type blocklen, (if last.type ≠ current.type then last.retype arch else last)
        = { last with type, blocklen } ∧ blocklen * arch.size type = last.block arch := by
  split
  · exact ⟨.uint1, last.block arch % 2 ^ 64, rfl, block_retype small⟩
  · exact ⟨last.type, last.blocklen, rfl, rfl⟩

/-- Blocks at one distance, cut behind any of them. -/
theorem shift_copies_add {d x : Offset} {n k : Nat} {m : List Byte} :
    shift d (copies (n + k) x m) = shift d (copies n x m) ++ shift (n * x + d) (copies k x m) := by
  rw [copies_add, shift_append, shift_shift]

/-- An element that took in the next one has the bytes of both, as long as its count fits. -/
theorem merge_bytes (small : last.block arch < 2 ^ 64) (other : current.block arch < 2 ^ 64)
    (merges : last.merge? arch current = some merged) :
    merged.block arch = last.block arch ∧ merged.count = last.count + current.count ∧
      merged.bytes arch = last.bytes arch ++ current.bytes arch := by
  unfold merge? at merges
  split at merges
  case isFalse => cases merges
  rename_i blocks
  rw [Nat.mod_eq_of_lt small, Nat.mod_eq_of_lt other] at blocks
  obtain ⟨type, blocklen, retyped, same⟩ := retyped_eq current small
  simp only [retyped] at merges
  -- In every case the next block is at the distance of the others.
  split at merges
  · rename_i single
    cases merges
    have next : (current.disp : Offset) = last.count * last.extent + last.disp := by
      rw [← single.1]; push_cast [cast_int64]; ring
    refine ⟨same, by simp [single.2], ?_⟩
    simp only [bytes, block, same]
    rw [shift_copies_add, ← next, single.2, copies_one, copies_one, ← block, ← block, blocks]
  split at merges
  · -- The second goes on where the first ends, at the same distance.
    rename_i follows
    cases merges
    have next : (current.disp : Offset) = last.count * last.extent + last.disp := by
      rw [← follows.1]; push_cast [cast_int64]; ring
    refine ⟨same, rfl, ?_⟩
    simp only [bytes, block, same]
    rw [shift_copies_add, ← next, follows.2, ← block, ← block, blocks]
  split at merges
  · -- Two single blocks: their distance becomes the extent.
    rename_i singles
    cases merges
    refine ⟨same, by simp [singles], ?_⟩
    simp only [bytes, block, same]
    have next : (1 : Nat) * ((int64 (current.disp - last.disp) : Int) : Offset) + last.disp
        = current.disp := by
      rw [Nat.cast_one, one_mul, cast_int64, Int.cast_sub, sub_add_cancel]
    rw [show 2 = 1 + 1 from rfl, shift_copies_add, singles.1, singles.2, next, copies_one,
      copies_one, copies_one, ← block, ← block, blocks]
  split at merges
  · -- The single block stands one extent before the others.
    rename_i before
    cases merges
    have next : (current.disp : Offset) = (1 : Nat) * current.extent + last.disp := by
      rw [← before.2, cast_int64, Int.cast_add, Nat.cast_one, one_mul, add_comm]
    refine ⟨same, Nat.add_comm _ _, ?_⟩
    simp only [bytes, block, same]
    rw [Nat.add_comm, shift_copies_add, before.1, ← next, copies_one, copies_one, ← block, ← block,
      blocks]
  · cases merges

theorem block_join (small : last.block arch + current.block arch < 2 ^ 64) :
    (last.join arch current).block arch = last.block arch + current.block arch := by
  have lastLen := last.blocklen_le_block arch
  have currentLen := current.blocklen_le_block arch
  unfold join
  split
  · rename_i same
    simp only [block, Nat.mod_eq_of_lt (show last.blocklen + current.blocklen < 2 ^ 64 by omega)]
    rw [Nat.add_mul, same]
  · simp only [block, arch.size_uint1, Nat.mul_one]
    exact Nat.mod_eq_of_lt small

theorem join_count : (last.join arch current).count = last.count := by
  unfold join
  split <;> rfl

theorem join_disp : (last.join arch current).disp = last.disp := by
  unfold join
  split <;> rfl

/-- A single block joined with the block it touches. -/
theorem bytes_join (small : last.block arch + current.block arch < 2 ^ 64)
    (single : last.count = 1)
    (touches : (current.disp : Offset) = last.block arch + last.disp) :
    (last.join arch current).bytes arch
      = last.bytes arch ++ shift (current.disp : Offset) (line (current.block arch)) := by
  rw [bytes, bytes, join_count, join_disp, block_join small, single, copies_one, copies_one,
    line_add, shift_append, shift_shift, ← touches]

/-- The first block of an element and the blocks behind it. -/
theorem bytes_first (some : 0 < e.count) :
    e.bytes arch = shift (e.disp : Offset) (line (e.block arch)) ++
      ({ e with count := e.count - 1, disp := int64 (e.disp + e.extent) } : Elem).bytes arch := by
  obtain ⟨n, count⟩ := Nat.exists_eq_add_of_lt some
  have count : e.count = 1 + n := by omega
  have next : (1 : Nat) * (e.extent : Offset) + e.disp
      = ((int64 (e.disp + e.extent) : Int) : Offset) := by
    rw [Nat.cast_one, one_mul, cast_int64, Int.cast_add, add_comm]
  simp only [bytes, block, count, Nat.add_sub_cancel_left]
  rw [shift_copies_add, copies_one, next]

/-- The blocks of an element before its last one, and the last one. -/
theorem bytes_last (some : 0 < e.count) :
    e.bytes arch = ({ e with count := e.count - 1 } : Elem).bytes arch ++
      ({ e with
        disp := int64 (e.disp + (e.count - 1) * e.extent), count := 1 } : Elem).bytes arch := by
  obtain ⟨n, count⟩ := Nat.exists_eq_add_of_lt some
  have count : e.count = n + 1 := by omega
  have last : (n : Offset) * (e.extent : Offset) + e.disp
      = ((int64 (e.disp + ((n + 1 : Nat) - 1) * e.extent) : Int) : Offset) := by
    rw [cast_int64]
    push_cast
    ring
  simp only [bytes, block, count, Nat.add_sub_cancel]
  rw [shift_copies_add, last]

end Elem

/-- A loop as the pass writes it; what depends on nothing being lost is conditional. -/
structure LoopWritten (arch : Arch) (exact : Prop) (l : Loop) (body : List Entry) (b : List Slot)
    (f : EndLoop) : Prop where
  plain : l.contiguous = false
  loops_pos : 0 < l.loops
  loops_lt : l.loops < 2 ^ 32
  items : l.items = body.length + 1
  kept : exact → body ≠ [] ∧ f.size = (bytesOf arch b).length

/-- A description as the pass writes it, and its type map. -/
inductive Written (arch : Arch) (exact : Prop) : List Entry → List Slot → Prop where
  | nil : Written arch exact [] []
  | elem {rest m} (e : Elem) : e.Sound → Written arch exact rest m →
      Written arch exact (.elem e :: rest) (e.slots arch ++ m)
  | loop {body rest b m} (l : Loop) (f : EndLoop) : LoopWritten arch exact l body b f →
      Written arch exact body b → Written arch exact rest m →
      Written arch exact (.loop l :: body ++ .endLoop f :: rest)
        (copies l.loops (l.extent : Offset) b ++ m)

section Written

variable {arch : Arch} {exact other : Prop} {desc others : List Entry} {m l : List Slot}

theorem Written.denotes (written : Written arch exact desc m) : Denotes arch desc m := by
  induction written with
  | nil => exact .nil
  | elem e _ _ ih => exact ih.elem e
  | loop l f _ _ _ body rest => exact body.loop l f rest

theorem Written.append (front : Written arch exact desc m) (back : Written arch exact others l) :
    Written arch exact (desc ++ others) (m ++ l) := by
  induction front with
  | nil => exact back
  | elem e sound _ ih => simpa using ih.elem e sound
  | loop loop f sound body _ _ ih => simpa using body.loop loop f sound ih

theorem Written.mono (written : Written arch exact desc m) (weaker : other → exact) :
    Written arch other desc m := by
  induction written with
  | nil => exact .nil
  | elem e sound _ ih => exact ih.elem e sound
  | loop l f sound _ _ body rest =>
    exact body.loop l f { sound with kept := fun holds => sound.kept (weaker holds) } rest

theorem Written.single {e : Elem} (sound : e.Sound) :
    Written arch exact [.elem e] (e.slots arch) := by
  simpa using (@Written.nil arch exact).elem e sound

end Written

/-- The pending element: none, or a sound one. -/
def Pending (e : Elem) : Prop := e.count = 0 ∨ e.Sound

/-- Whether the count of a merged element fits its field. -/
def MergeFits (arch : Arch) (last current : Elem) : Prop :=
  last.count ≠ 0 → ∀ merged, (last.create arch).merge? arch current = some merged →
    merged.count < 2 ^ 32

/-- What is written while `added` new bytes are read: nothing is invented, and what is lost is
lost because something did not fit. -/
structure Kept (fits : Prop) (before after read : List Byte) (wrote : List Byte) : Prop where
  le : wrote.length + after.length ≤ before.length + read.length
  exact : fits → wrote ++ after = before ++ read
  fits : wrote.length + after.length = before.length + read.length → fits

section Kept

variable {fits other : Prop} {before after read wrote : List Byte}

theorem Kept.of_exact (holds : fits) (same : wrote ++ after = before ++ read) :
    Kept fits before after read wrote where
  le := by
    have := congrArg List.length same
    simp only [length_append] at this
    exact this.le
  exact _ := same
  fits _ := holds

theorem Kept.congr (kept : Kept fits before after read wrote) (same : fits ↔ other) :
    Kept other before after read wrote :=
  ⟨kept.le, fun holds => kept.exact (same.mpr holds), fun equal => same.mp (kept.fits equal)⟩

end Kept

namespace Pass

variable {arch : Arch} {p : Pass} {current : Elem}

/-- Some written elements and the change of the pass that goes with them. -/
structure Wrote (arch : Arch) (p q : Pass) (added : List Entry) (w : List Slot) : Prop where
  rest : q.rest = p.rest
  opened : q.opened = p.opened
  out : q.out = p.out ++ added
  written : ∀ exact, Written arch exact added w

theorem Wrote.trans {q r : Pass} {first second : List Entry} {w v : List Slot}
    (one : Wrote arch p q first w) (two : Wrote arch q r second v) :
    Wrote arch p r (first ++ second) (w ++ v) where
  rest := two.rest.trans one.rest
  opened := two.opened.trans one.opened
  out := by rw [two.out, one.out, append_assoc]
  written exact := (one.written exact).append (two.written exact)

theorem keepLast_wrote (sound : p.last.Sound) (small : (p.last.bytes arch).length < 2 ^ 64) :
    ∃ added w, Wrote arch p (p.keepLast arch) added w ∧
      (p.keepLast arch).last.count = 1 ∧
      (p.keepLast arch).last.block arch = p.last.block arch ∧
      ((p.keepLast arch).last.disp : Offset)
        = p.last.disp + ((p.last.count : Offset) - 1) * p.last.extent ∧
      bytesOf arch w ++ (p.keepLast arch).last.bytes arch = p.last.bytes arch := by
  unfold keepLast
  split
  · -- All blocks but the last one are written.
    have positive := sound.count_pos
    have front : Elem.Sound { p.last with count := p.last.count - 1 } :=
      ⟨by dsimp only; omega, by have := sound.count_lt; dsimp only; omega, sound.blocklen_pos⟩
    have fits : (p.last.count - 1) * p.last.block arch < 2 ^ 64 :=
      lt_of_le_of_lt (Nat.mul_le_mul_right _ (Nat.sub_le _ _)) (Elem.length_bytes ▸ small)
    refine ⟨_, _, ⟨rfl, rfl, rfl, fun _ => .single (front.create fits)⟩, rfl, rfl, ?_, ?_⟩
    · rw [cast_int64]
      push_cast
      rfl
    · rw [bytesOf_slots, Elem.bytes_create fits, Elem.bytes_last positive]
      rfl
  · -- A single block stays pending.
    rename_i single
    have single : p.last.count = 1 := not_not.mp single
    refine ⟨[], [], ⟨rfl, rfl, (append_nil _).symm, fun _ => .nil⟩, single, rfl, ?_, rfl⟩
    simp [single]

theorem joinFirst_wrote (sound : current.Sound) (single : p.last.count = 1)
    (small : p.last.block arch + (current.bytes arch).length < 2 ^ 64)
    (touches : (current.disp : Offset) = p.last.block arch + p.last.disp) :
    ∃ added w, Wrote arch p (p.joinFirst arch current) added w ∧
      (p.joinFirst arch current).last.Sound ∧
      bytesOf arch w ++ (p.joinFirst arch current).last.bytes arch
        = p.last.bytes arch ++ current.bytes arch := by
  have positive := sound.count_pos
  have block := sound.block_le arch
  have fits : p.last.block arch + current.block arch < 2 ^ 64 := by omega
  have joined := Elem.bytes_join fits single touches
  -- The joined block is counted once.
  have joined_sound : (p.last.join arch current).Sound := by
    have size : 0 < (p.last.join arch current).block arch := by
      rw [Elem.block_join fits]
      exact Nat.add_pos_right _ sound.block_pos
    refine ⟨?_, ?_, Nat.pos_of_mul_pos_right size⟩
    · rw [Elem.join_count, single]
      exact Nat.one_pos
    · rw [Elem.join_count, single]
      exact Nat.one_lt_two_pow (by decide)
  have first := @Elem.bytes_first arch current positive
  unfold joinFirst
  split
  · -- The other blocks of the element become pending.
    have fewer : (current.count + (2 ^ 32 - 1)) % 2 ^ 32 = current.count - 1 := by
      have := sound.count_lt
      omega
    have small : (p.last.join arch current).count * (p.last.join arch current).block arch
        < 2 ^ 64 := by
      rw [Elem.join_count, Elem.block_join fits, single, Nat.one_mul]
      exact fits
    refine ⟨_, _, ⟨rfl, rfl, rfl, fun _ => .single (joined_sound.create small)⟩, ?_, ?_⟩
    · rw [fewer]
      exact ⟨by dsimp only; omega, by have := sound.count_lt; dsimp only; omega, sound.blocklen_pos⟩
    · rw [fewer, bytesOf_slots, Elem.bytes_create small, joined, append_assoc, ← first]
  · rename_i one
    have one : current.count = 1 := not_not.mp one
    refine ⟨[], [], ⟨rfl, rfl, (append_nil _).symm, fun _ => .nil⟩, joined_sound, ?_⟩
    rw [bytesOf_nil, joined, first]
    simp [one, Elem.bytes]

/-- Next to a pending element, bytes are lost only when the count of a merged one does not fit. -/
theorem combine_wrote (lastSound : p.last.Sound) (sound : current.Sound)
    (small : (p.last.bytes arch).length + (current.bytes arch).length < 2 ^ 64) :
    ∃ added w, Wrote arch p (p.combine arch current) added w ∧
      Pending (p.combine arch current).last ∧
      Kept (∀ merged, p.last.merge? arch current = some merged → merged.count < 2 ^ 32)
        (p.last.bytes arch) ((p.combine arch current).last.bytes arch) (current.bytes arch)
        (bytesOf arch w) := by
  have lastBlock := lastSound.block_le arch
  have currentBlock := sound.block_le arch
  unfold combine
  split
  · -- Blocks of one length at one distance: only the count grows.
    rename_i merged merges
    obtain ⟨block, count, both⟩ := Elem.merge_bytes (by omega) (by omega) merges
    have positive : 0 < merged.block arch := block ▸ lastSound.block_pos
    have length := congrArg List.length both
    rw [Elem.length_bytes, length_append] at length
    have after : (Elem.bytes arch { merged with count := merged.count % 2 ^ 32 }).length
        = merged.count % 2 ^ 32 * merged.block arch := Elem.length_bytes
    refine ⟨[], [], ⟨rfl, rfl, (append_nil _).symm, fun _ => .nil⟩, ?_, ?_, ?_, ?_⟩
    · -- The count may have wrapped to zero, which leaves nothing pending.
      by_cases zero : merged.count % 2 ^ 32 = 0
      · exact .inl zero
      · exact .inr ⟨Nat.pos_of_ne_zero zero, Nat.mod_lt _ (by decide),
          Nat.pos_of_mul_pos_right positive⟩
    · rw [bytesOf_nil, length_nil, Nat.zero_add, after, ← length]
      exact Nat.mul_le_mul_right _ (Nat.mod_le _ _)
    · intro fits
      rw [bytesOf_nil, nil_append, ← both, Nat.mod_eq_of_lt (fits merged merges)]
    · intro same other equal
      rw [bytesOf_nil, length_nil, Nat.zero_add, after, ← length] at same
      rw [merges] at equal
      rw [← Option.some.inj equal, ← Nat.eq_of_mul_eq_mul_right positive same]
      exact Nat.mod_lt _ (by decide)
  rename_i separate
  have fits : ∀ merged, p.last.merge? arch current = some merged → merged.count < 2 ^ 32 := by
    intro merged merges
    simp [separate] at merges
  split
  · -- The touching blocks become one, and the blocks around them stay what they are.
    rename_i touches
    obtain ⟨front, u, one, single, block, disp, before⟩ :=
      keepLast_wrote (p := p.restrict arch current) lastSound
        (lt_of_le_of_lt (Nat.le_add_right _ _) small)
    have joins : (current.disp : Offset)
        = ((p.restrict arch current).keepLast arch).last.block arch
          + ((p.restrict arch current).keepLast arch).last.disp := by
      rw [block, disp, ← touches, cast_int64]
      push_cast
      rw [add_comm]
      rfl
    have room : ((p.restrict arch current).keepLast arch).last.block arch
        + (current.bytes arch).length < 2 ^ 64 := by
      rw [block]
      exact lt_of_le_of_lt (Nat.add_le_add_right lastBlock _) small
    obtain ⟨back, v, two, afterSound, after⟩ := joinFirst_wrote sound single room joins
    have all := congrArg (bytesOf arch u ++ ·) after
    simp only [← append_assoc, before, ← bytesOf_append] at all
    refine ⟨front ++ back, u ++ v, ?_, .inr afterSound, .of_exact fits all⟩
    exact Wrote.trans { one with } two
  · -- Nothing in common: the pending element is written.
    have small : p.last.count * p.last.block arch < 2 ^ 64 := by
      rw [← Elem.length_bytes]
      exact lt_of_le_of_lt (Nat.le_add_right _ _) small
    refine ⟨_, _, ⟨rfl, rfl, rfl, fun _ => .single (lastSound.create small)⟩, .inr sound,
      .of_exact fits ?_⟩
    rw [bytesOf_slots, Elem.bytes_create small]

/-- Taking in an element loses bytes only when the count of a merged element does not fit. -/
theorem fuse_wrote (pending : Pending p.last) (sound : current.Sound)
    (small : (p.last.bytes arch).length + (current.bytes arch).length < 2 ^ 64) :
    ∃ added w, Wrote arch p (p.fuse arch current) added w ∧ Pending (p.fuse arch current).last ∧
      Kept (MergeFits arch p.last current) (p.last.bytes arch)
        ((p.fuse arch current).last.bytes arch) (current.bytes arch) (bytesOf arch w) := by
  unfold fuse
  split
  · -- The first element just becomes pending.
    rename_i none
    refine ⟨[], [], ⟨rfl, rfl, (append_nil _).symm, fun _ => .nil⟩, .inr sound, .of_exact ?_ ?_⟩
    · exact fun some => absurd none some
    · simp [Elem.bytes_of_count none]
  · -- The pending element is written anew before it is compared.
    rename_i some
    have lastSound := pending.resolve_left some
    have total : p.last.count * p.last.block arch < 2 ^ 64 := by
      rw [← Elem.length_bytes]
      omega
    have bytes := Elem.bytes_create total
    obtain ⟨added, w, wrote, after, kept⟩ :=
      combine_wrote (p := { p with last := p.last.create arch }) (lastSound.create total) sound
        (by dsimp only; rw [bytes]; exact small)
    refine ⟨added, w, { wrote with }, after, ?_⟩
    rw [bytes] at kept
    exact kept.congr ⟨fun fits _ => fits, fun fits => fits some⟩

end Pass

end EduMpi.Ddt
