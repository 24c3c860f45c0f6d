import EduMpi.Ddt.Transfer
import EduMpi.Ddt.WalkLaws

/-! Moving one element moves its next bytes, as long as the typed copy keeps the stride. -/

namespace EduMpi.Ddt

open Ints Strided Elem

/-- What makes a channel right: a move takes a line of bytes from the address on, and what is moved
is lost as space. -/
structure Channel.Lawful {σ : Type} (ch : Channel σ) (base : Offset)
    (moves : σ → List Byte → σ → Prop) : Prop where
  refl : ∀ s, moves s [] s
  trans : ∀ {s t u one two}, moves s one t → moves t two u → moves s (one ++ two) u
  space : ∀ {s bytes t}, moves s bytes t → ch.space t + bytes.length = ch.space s
  move : ∀ {s d n}, n ≤ ch.space s → moves s (shift d (line n)) (ch.move s (base + d) n)

/-- As many elements as there are, and no more than the space has room for. -/
theorem Elem.cando_spec (arch : Arch) (e : Elem) (count space : Nat) :
    e.cando arch count space ≤ count ∧ e.cando arch count space * arch.size e.type ≤ space := by
  have size := arch.size_pos e.type
  unfold Elem.cando
  split
  · rename_i short
    have few : space / arch.size e.type < count := by
      rw [Nat.div_lt_iff_lt_mul size, Nat.mul_comm]
      exact short
    exact ⟨few.le, Nat.div_mul_le_self _ _⟩
  · rename_i fits
    rw [Nat.mul_comm] at fits
    exact ⟨le_rfl, by omega⟩

/-- A stride of whole elements is the distance of the blocks. -/
theorem Elem.typedStride_eq {arch : Arch} {e : Elem}
    (divides : arch.size e.type ∣ (e.extent : Offset).toNat) :
    e.typedStride arch = (e.extent : Offset) := by
  rw [typedStride, Nat.div_mul_cancel divides, BitVec.natCast_eq_ofNat, BitVec.ofNat_toNat,
    BitVec.setWidth_eq]

/-- A line is cut at any place. -/
theorem shift_line_split {d : Offset} {n m : Nat} (few : n ≤ m) :
    shift d (line m) = shift d (line n) ++ shift (d + (n : Offset)) (line (m - n)) := by
  obtain ⟨rest, rfl⟩ := Nat.exists_eq_add_of_le few
  rw [line_add, shift_append, shift_shift, Nat.add_sub_cancel_left, add_comm (n : Offset) d]

/-- When the typed copy is safe: it ends the element, does not complete a block, or steps over whole
elements only. -/
def StrideFits (arch : Arch) (base : Offset) (e : Elem) (count : Nat) (ptr : Offset) (space : Nat)
    (packed : Offset) : Prop :=
  e.blocklen < 9 →
    e.FastCopy arch (e.cando arch count space) (base + ptr + (e.disp : Offset)) packed →
    e.blocklen ≤ e.cando arch count space → e.blocklen < count →
    arch.size e.type ∣ (e.extent : Offset).toNat

instance (arch : Arch) (base : Offset) (e : Elem) (count : Nat) (ptr : Offset) (space : Nat)
    (packed : Offset) : Decidable (StrideFits arch base e count ptr space packed) :=
  inferInstanceAs (Decidable (_ → _ → _ → _ → _))

namespace Channel

variable {σ : Type} {arch : Arch} {ch : Channel σ} {base b : Offset}
  {moves : σ → List Byte → σ → Prop} {e : Elem} {k cando : Nat} {s : σ} {user : Offset}

/-- Moving nothing from anywhere. -/
theorem Lawful.move_none (lawful : ch.Lawful base moves) (s : σ) (user : Offset) :
    moves s [] (ch.move s user 0) := by
  have none := @Lawful.move _ _ _ _ lawful s (user - base) 0 (Nat.zero_le _)
  rwa [add_sub_cancel, line_zero] at none

/-- Blocks at a fixed distance, one move each. -/
theorem Lawful.moveBlocks (lawful : ch.Lawful base moves) {n : Nat} {stride : Offset} (blocks : Nat)
    (d : Offset) (s : σ) (fits : blocks * n ≤ ch.space s) :
    (ch.moveBlocks n stride blocks (base + d) s).1 = base + (d + (blocks : Offset) * stride) ∧
      moves s (shift d (copies blocks stride (line n)))
        (ch.moveBlocks n stride blocks (base + d) s).2 := by
  induction blocks generalizing d s with
  | zero => exact ⟨by simp [Channel.moveBlocks], by simpa [Channel.moveBlocks] using lawful.refl s⟩
  | succ blocks ih =>
    -- The first block is moved, the others are those of a shorter row one stride on.
    rw [Nat.succ_mul] at fits
    have first := @Lawful.move _ _ _ _ lawful s d n (by omega)
    have space := lawful.space first
    rw [length_shift, length_line] at space
    obtain ⟨user, rest⟩ := ih (d + stride) (ch.move s (base + d) n) (by omega)
    rw [Channel.moveBlocks, add_assoc base d stride]
    constructor
    · rw [user]
      simp only [Nat.cast_add]
      ring
    · rw [shift_copies_succ]
      exact lawful.trans first rest

/-- What moving some elements must have done: it took their bytes, and unless the element is
complete it stands behind them. -/
def Took (arch : Arch) (base b : Offset) (moves : σ → List Byte → σ → Prop) (e : Elem)
    (k cando : Nat) (s : σ) (r : Offset × σ) : Prop :=
  moves s (shift b (e.between arch k (k - cando))) r.2 ∧
    (k - cando ≠ 0 → r.1 = base + (b + e.reached arch (k - cando)) + (e.disp : Offset))

/-- From the start of a block, `cando` elements are there and fit. -/
structure Starts (arch : Arch) (ch : Channel σ) (base b : Offset) (e : Elem) (k cando : Nat) (s : σ)
    (user : Offset) : Prop where
  sound : e.Sound
  some : k ≤ e.count * e.blocklen
  aligned : k % e.blocklen = 0
  few : cando ≤ k
  fits : cando * arch.size e.type ≤ ch.space s
  start : user = base + (b + e.reached arch k) + (e.disp : Offset)

theorem Starts.place (starts : Starts arch ch base b e k cando s user) :
    user = base + ((e.disp : Offset) + e.reached arch k + b) := by
  rw [starts.start]
  ring

section Lawful

variable (lawful : ch.Lawful base moves)

include lawful

section Starts

variable (starts : Starts arch ch base b e k cando s user)

include starts

/-- One move inside a block. -/
theorem Lawful.took_within (within : cando ≤ e.blocklen)
    (partly : k - cando ≠ 0 → cando < e.blocklen) :
    Took arch base b moves e k cando s
      (user + (cando * arch.size e.type : Nat), ch.move s user (cando * arch.size e.type)) := by
  have place := starts.place
  obtain ⟨sound, some, aligned, few, fits, start⟩ := starts
  have zero := (aligned_iff some).mpr aligned
  have bytes := @between_eq arch e k cando some few (by omega)
  constructor
  · rw [bytes, shift_shift, place]
    exact lawful.move fits
  · intro more
    rw [@reached_within arch e k cando few some (by have := partly more; omega), start]
    ring

/-- Whole blocks at the right distance, and the start of the next one. -/
theorem Lawful.took_blocks {stride : Offset} (same : stride = (e.extent : Offset)) :
    let r := ch.moveBlocks (e.block arch) stride (cando / e.blocklen) user s
    Took arch base b moves e k cando s
      (r.1 + (cando % e.blocklen * arch.size e.type : Nat),
        ch.move r.2 r.1 (cando % e.blocklen * arch.size e.type)) := by
  have place := starts.place
  obtain ⟨sound, some, aligned, few, fits, start⟩ := starts
  have positive := sound.blocklen_pos
  have split := Nat.div_add_mod' cando e.blocklen
  have less := Nat.mod_lt cando positive
  generalize cando / e.blocklen = n at split ⊢
  generalize cando % e.blocklen = rest at split less ⊢
  intro r
  -- The blocks end at a counter that is the start of a block again.
  have blocks : n * e.block arch ≤ ch.space s := by
    rw [Elem.block, ← Nat.mul_assoc]
    exact (Nat.mul_le_mul_right _ (by omega)).trans fits
  obtain ⟨bytes, reached⟩ := @between_blocks arch e k n sound some aligned (by omega)
  obtain ⟨ends, moved⟩ := @Lawful.moveBlocks _ _ _ _ lawful (e.block arch) stride n
    ((e.disp : Offset) + e.reached arch k + b) s blocks
  have r_eq : r = ch.moveBlocks (e.block arch) stride n
      (base + ((e.disp : Offset) + e.reached arch k + b)) s := by rw [← place]
  rw [← r_eq] at ends moved
  have again : (k - n * e.blocklen) % e.blocklen = 0 :=
    Nat.dvd_iff_mod_eq_zero.mp (Nat.dvd_sub (Nat.dvd_of_mod_eq_zero aligned) (Nat.dvd_mul_left _ _))
  have space : rest * arch.size e.type ≤ ch.space r.2 := by
    have := lawful.space moved
    rw [length_shift, length_copies, length_line, Elem.block, ← Nat.mul_assoc] at this
    rw [← split, Nat.add_mul] at fits
    omega
  have last := @Lawful.took_within _ arch _ _ b _ e (k - n * e.blocklen) rest r.2 r.1 lawful
    ⟨sound, by omega, again, by omega, space, by rw [ends, reached, same]; ring⟩ less.le
    fun _ => less
  have after : k - n * e.blocklen - rest = k - cando := by omega
  constructor
  · rw [between_append some (Nat.sub_le k (n * e.blocklen)) (by omega), shift_append, bytes,
      shift_shift, ← same]
    have tail := last.1
    rw [after] at tail
    exact lawful.trans moved tail
  · intro more
    rw [← after]
    exact last.2 (by omega)

/-- The copies by `memcpy` are always right. -/
theorem Lawful.byMemcpy_took :
    Took arch base b moves e k cando s (ch.byMemcpy arch e cando user s) := by
  have blocks := lawful.took_blocks starts rfl
  have within := lawful.took_within starts
  have place := starts.place
  obtain ⟨sound, some, aligned, few, fits, start⟩ := starts
  unfold byMemcpy
  by_cases one : e.blocklen = 1
  · -- Blocks of one element leave no rest.
    rw [if_pos one]
    obtain ⟨ends, moved⟩ := @Lawful.moveBlocks _ _ _ _ lawful (arch.size e.type)
      (e.extent : Offset) cando ((e.disp : Offset) + e.reached arch k + b) s fits
    obtain ⟨bytes, reached⟩ := @between_blocks arch e k cando sound some aligned
      (by rw [one]; omega)
    rw [one, Nat.mul_one] at bytes reached
    rw [place]
    refine ⟨?_, fun _ => ?_⟩
    · rw [bytes, shift_shift, Elem.block, one, Nat.one_mul]
      exact moved
    · rw [ends, reached]
      ring
  rw [if_neg one]
  by_cases several : 1 < e.count ∧ e.blocklen ≤ cando
  · simp only [if_pos several]
    rw [← Nat.mod_eq_sub_div_mul]
    exact blocks
  · -- The epilog copies less than a block, or the only block there is.
    simp only [if_neg several, Nat.zero_mul, Channel.moveBlocks]
    have only : e.blocklen ≤ cando → k = e.blocklen := by
      intro whole
      have single : e.count = 1 := by
        have := sound.count_pos
        by_contra other
        exact several ⟨by omega, whole⟩
      rw [single] at some
      omega
    refine within ?_ ?_
    · by_contra more
      omega
    · intro more
      by_contra whole
      omega

/-- The typed copy is right when its stride fits. -/
theorem Lawful.predefinedElement_took
    (stride : e.blocklen ≤ cando → e.blocklen < k → arch.size e.type ∣ (e.extent : Offset).toNat) :
    Took arch base b moves e k cando s (ch.predefinedElement arch e cando user s) := by
  have positive := starts.sound.blocklen_pos
  have few := starts.few
  unfold predefinedElement
  -- Whole blocks go by the typed stride, which is right as long as it divides.
  by_cases whole : e.blocklen ≤ cando
  · by_cases more : e.blocklen < k
    · exact lawful.took_blocks starts (typedStride_eq (stride whole more))
    · -- The last block of the element: where the copy ends does not matter.
      have last : cando = e.blocklen := by omega
      have none : k - cando = 0 := by omega
      have bytes := (lawful.took_within starts last.le fun other => absurd none other).1
      refine ⟨?_, fun other => absurd none other⟩
      simp only [last, Nat.div_self positive, Nat.mod_self, Nat.zero_mul]
      rw [last] at bytes
      have after := lawful.trans bytes (lawful.move_none _ (user + e.typedStride arch))
      rwa [List.append_nil] at after
  · have below : cando < e.blocklen := by omega
    simp only [Nat.div_eq_of_lt below, Nat.mod_eq_of_lt below]
    exact lawful.took_within starts below.le fun _ => below

end Starts

/-- Whole blocks and a remainder, from the start of a block on. -/
theorem Lawful.predefinedData_steps (sound : e.Sound)
    (some : k ≤ e.count * e.blocklen) (aligned : k % e.blocklen = 0)
    (stride : StrideFits arch base e k (b + e.reached arch k) (ch.space s) (ch.addr s)) :
    e.Steps arch b moves k s (ch.predefinedData arch base e k (b + e.reached arch k) s) := by
  obtain ⟨few, fits⟩ := e.cando_spec arch k (ch.space s)
  unfold predefinedData
  unfold StrideFits at stride
  generalize e.cando arch k (ch.space s) = cando at few fits stride ⊢
  -- Both ways of copying take the same bytes and end at the same place.
  have took : Took arch base b moves e k cando s
      (if e.blocklen < 9 ∧ e.FastCopy arch cando
          (base + (b + e.reached arch k) + (e.disp : Offset)) (ch.addr s) then
        ch.predefinedElement arch e cando (base + (b + e.reached arch k) + (e.disp : Offset)) s
      else ch.byMemcpy arch e cando (base + (b + e.reached arch k) + (e.disp : Offset)) s) := by
    split
    · rename_i fast
      exact lawful.predefinedElement_took ⟨sound, some, aligned, few, fits, rfl⟩
        (stride fast.1 fast.2)
    · exact lawful.byMemcpy_took ⟨sound, some, aligned, few, fits, rfl⟩
  dsimp only
  generalize (if e.blocklen < 9 ∧ e.FastCopy arch cando
      (base + (b + e.reached arch k) + (e.disp : Offset)) (ch.addr s) then _ else _) = r at took ⊢
  obtain ⟨moved, ends⟩ := took
  refine ⟨Nat.sub_le _ _, moved, fun more => ?_⟩
  rw [ends more]
  ring

end Lawful

/-- What finishing a block must have done: the next block follows, or the counter is inside. -/
def Rests (arch : Arch) (b : Offset) (moves : σ → List Byte → σ → Prop) (e : Elem)
    (k : Nat) (s : σ) : Bool × Nat × Offset × σ → Prop
  | (true, k', ptr, s') => k' ≤ k ∧ k' % e.blocklen = 0 ∧ ptr = b + e.reached arch k' ∧
      moves s (shift b (e.between arch k k')) s'
  | (false, r) => e.Steps arch b moves k s r

/-- The elements of a block before a counter and those behind it make up the block. -/
theorem before_counter (sound : e.Sound) (some : k ≤ e.count * e.blocklen)
    (inside : k % e.blocklen ≠ 0) :
    (e.count * e.blocklen - k) % e.blocklen = e.blocklen - k % e.blocklen := by
  have positive := sound.blocklen_pos
  have less := Nat.mod_lt k positive
  have small := Nat.mod_lt (e.count * e.blocklen - k) positive
  have divides : e.blocklen ∣ k % e.blocklen + (e.count * e.blocklen - k) % e.blocklen := by
    rw [Nat.dvd_iff_mod_eq_zero, ← Nat.add_mod, Nat.add_sub_cancel' some, Nat.mul_mod_left]
  have whole := Nat.eq_of_dvd_of_lt_two_mul (by omega) divides (by omega)
  omega

/-- Finishing a block, from any counter on. -/
theorem Lawful.restOfBlock_rests (lawful : ch.Lawful base moves) (sound : e.Sound)
    (some : k ≤ e.count * e.blocklen) :
    Rests arch b moves e k s (ch.restOfBlock arch base e k (b + e.reached arch k) s) := by
  have positive := sound.blocklen_pos
  unfold restOfBlock
  by_cases aligned : k % e.blocklen = 0
  · -- At the start of a block there is nothing to finish.
    rw [if_pos aligned]
    refine ⟨le_rfl, aligned, rfl, ?_⟩
    simpa [between] using lawful.refl s
  rw [if_neg aligned]
  obtain ⟨few, fits⟩ := e.cando_spec arch (k % e.blocklen) (ch.space s)
  generalize e.cando arch (k % e.blocklen) (ch.space s) = now at few fits ⊢
  have left_le := Nat.mod_le k e.blocklen
  have less := Nat.mod_lt k positive
  have before := before_counter sound some aligned
  have bytes := @between_eq arch e k now some (by omega) (by omega)
  have moved : moves s (shift b (e.between arch k (k - now)))
      (ch.move s (base + (b + e.reached arch k) + (e.disp : Offset)) (now * arch.size e.type)) := by
    have place : base + (b + e.reached arch k) + (e.disp : Offset)
        = base + ((e.disp : Offset) + e.reached arch k + b) := by ring
    rw [bytes, shift_shift, place]
    exact lawful.move fits
  -- The block is completed, or the space ends within it.
  by_cases complete : now = k % e.blocklen
  · rw [if_pos complete]
    refine ⟨Nat.sub_le _ _, ?_, ?_, moved⟩
    · rw [complete]
      exact Nat.dvd_iff_mod_eq_zero.mp (Nat.dvd_sub_mod k)
    · rw [@reached_block arch e k now sound (by omega) some (by omega)]
      ring
  · rw [if_neg complete]
    refine ⟨Nat.sub_le _ _, moved, fun _ => ?_⟩
    rw [@reached_within arch e k now (by omega) some (by omega)]
    ring

/-- When moving one element is safe: the typed copy of the blocks behind a finished one is. -/
def Fits (arch : Arch) (ch : Channel σ)
    (rest : Elem → Nat → Offset → σ → Bool × Nat × Offset × σ) (base : Offset) (e : Elem)
    (count : Nat) (ptr : Offset) (s : σ) : Prop :=
  if e.count * e.blocklen ≠ count then
    (rest e count ptr s).1 = true → (rest e count ptr s).2.1 ≠ 0 →
      StrideFits arch base e (rest e count ptr s).2.1 (rest e count ptr s).2.2.1
        (ch.space (rest e count ptr s).2.2.2) (ch.addr (rest e count ptr s).2.2.2)
  else StrideFits arch base e count ptr (ch.space s) (ch.addr s)

instance (arch : Arch) (ch : Channel σ)
    (rest : Elem → Nat → Offset → σ → Bool × Nat × Offset × σ) (base : Offset) (e : Elem)
    (count : Nat) (ptr : Offset) (s : σ) : Decidable (ch.Fits arch rest base e count ptr s) :=
  inferInstanceAs (Decidable (if _ ≠ count then _ → _ → StrideFits arch base e _ _ _ _
    else StrideFits arch base e _ _ _ _))

/-- One element, from any counter on. -/
theorem Lawful.transfer_steps (lawful : ch.Lawful base moves)
    {rest : Elem → Nat → Offset → σ → Bool × Nat × Offset × σ} (sound : e.Sound)
    (some : k ≤ e.count * e.blocklen)
    (rests : Rests arch b moves e k s (rest e k (b + e.reached arch k) s))
    (safe : ch.Fits arch rest base e k (b + e.reached arch k) s) :
    e.Steps arch b moves k s
      (e.transfer rest (ch.predefinedData arch base) k (b + e.reached arch k) s) := by
  unfold Fits at safe
  unfold transfer
  by_cases begun : e.count * e.blocklen ≠ k
  · rw [if_pos begun] at safe ⊢
    generalize rest e k (b + e.reached arch k) s = r at rests safe ⊢
    obtain ⟨complete, k', ptr, s'⟩ := r
    cases complete with
    | false => exact rests
    | true =>
      obtain ⟨fewer, start, rfl, moved⟩ := rests
      dsimp only
      split
      · rename_i finished
        exact ⟨fewer, moved, fun more => absurd finished more⟩
      -- The blocks behind the finished one follow.
      rename_i more
      obtain ⟨fewest, last, ends⟩ := @Lawful.predefinedData_steps _ arch _ _ b _ e k' s' lawful
        sound (by omega) start (safe rfl more)
      refine ⟨fewest.trans fewer, ?_, ends⟩
      rw [between_append some fewer fewest, shift_append]
      exact lawful.trans moved last
  · -- Nothing was begun: the element starts with a whole block.
    rw [if_neg begun] at safe ⊢
    have aligned : k % e.blocklen = 0 := by
      rw [← not_not.mp begun]
      exact Nat.mul_mod_left _ _
    exact lawful.predefinedData_steps sound some aligned safe

end Channel

namespace Row

variable {t : Datatype} {row : Row} {n : Nat}

/-- The bytes of a row that are still to come. -/
def todo (t : Datatype) (row : Row) : List Byte :=
  shift (row.place t) (line row.left) ++
    shift (row.start + (t.extent : Offset))
      (copies (row.blocks - 1) (t.extent : Offset) (shift (t.trueLb : Offset) (line t.size)))

/-- A row inside one of its blocks. -/
structure Sound (t : Datatype) (row : Row) : Prop where
  left_pos : 0 < row.left
  left_le : row.left ≤ t.size
  blocks_pos : 0 < row.blocks
  inside : row.inside = ((t.size - row.left : Nat) : Offset)

theorem length_todo (t : Datatype) (row : Row) :
    (row.todo t).length = row.left + (row.blocks - 1) * t.size := by
  simp [todo]

/-- At the start of a block all the blocks are to come. -/
theorem todo_start (positive : 0 < row.blocks) (whole : row.left = t.size)
    (start : row.inside = 0) :
    row.todo t = shift row.start
      (copies row.blocks (t.extent : Offset) (shift (t.trueLb : Offset) (line t.size))) := by
  obtain ⟨more, blocks⟩ : ∃ more, row.blocks = more + 1 := ⟨row.blocks - 1, by omega⟩
  rw [todo, place, whole, start, blocks, Nat.add_sub_cancel, shift_copies_succ, shift_shift,
    add_zero]

/-- The next bytes of the present block. -/
theorem todo_advance (few : n ≤ row.left) :
    row.todo t = shift (row.place t) (line n) ++ (row.advance n).todo t := by
  have next : (row.advance n).place t = row.place t + (n : Offset) := by
    simp only [place, advance]
    ring
  rw [todo, todo, next, shift_line_split few, List.append_assoc]
  rfl

/-- Inside a block the row stays sound. -/
theorem Sound.advance (sound : row.Sound t) (fewer : n < row.left) : (row.advance n).Sound t where
  left_pos := Nat.sub_pos_of_lt fewer
  left_le := (Nat.sub_le _ _).trans sound.left_le
  blocks_pos := sound.blocks_pos
  inside := by
    have := sound.left_le
    simp only [Row.advance]
    rw [sound.inside, ← Nat.cast_add]
    congr 1
    omega

/-- Behind the present block the other blocks follow, from the start of one on. -/
theorem todo_finish (positive : 0 < t.size) (more : row.blocks - 1 ≠ 0) :
    let next : Row := ⟨t.size, 0, row.blocks - 1, row.start + (t.extent : Offset)⟩
    next.Sound t ∧ row.todo t = shift (row.place t) (line row.left) ++ next.todo t := by
  intro next
  have blocks : 0 < next.blocks := Nat.pos_of_ne_zero more
  have next_todo := todo_start (t := t) blocks rfl rfl
  exact ⟨⟨positive, le_rfl, blocks, by simp [next]⟩, by rw [next_todo]; rfl⟩

end Row

namespace Channel

variable {σ : Type} {ch : Channel σ} {base : Offset} {moves : σ → List Byte → σ → Prop}
  {t : Datatype} {row : Row} {s : σ}

/-- What moving from a row must have done: it uses up the space for the next bytes, and what is left
is a row again. -/
def RowStep (ch : Channel σ) (moves : σ → List Byte → σ → Prop) (t : Datatype) (todo : List Byte)
    (s : σ) (row : Row) (after : σ) : Prop :=
  ∃ gone left, todo = gone ++ left ∧ moves s gone after ∧ ch.space after = 0 ∧
    (left ≠ [] → row.Sound t ∧ left = row.todo t)

section Rows

variable (lawful : ch.Lawful base moves)

include lawful

/-- The start of a block that does not end in the space. -/
theorem Lawful.row_begin (sound : row.Sound t) (fewer : ch.space s < row.left) :
    RowStep ch moves t (row.todo t) s (row.advance (ch.space s))
      (ch.move s (base + row.place t) (ch.space s)) := by
  have moved := @Lawful.move _ _ _ _ lawful s (row.place t) (ch.space s) le_rfl
  have space := lawful.space moved
  rw [length_shift, length_line] at space
  exact ⟨_, _, Row.todo_advance fewer.le, moved, by omega, fun _ => ⟨sound.advance fewer, rfl⟩⟩

/-- Full blocks from the start of a block on, and the start of one more. -/
theorem Lawful.row_whole (positive : 0 < t.size)
    (sound : row.Sound t) (whole : row.left = t.size) (enough : ch.space s ≤ row.blocks * t.size) :
    let r := ch.fullBlocks t base row s
    ch.space r.2.2 < r.1.left ∧
      RowStep ch moves t (row.todo t) s (r.1.advance (ch.space r.2.2))
        (ch.move r.2.2 r.2.1 (ch.space r.2.2)) := by
  have start : row.inside = 0 := by
    rw [sound.inside, whole, Nat.sub_self]
    rfl
  obtain ⟨full, full_def⟩ : ∃ full, full = ch.space s / t.size := ⟨_, rfl⟩
  have split := Nat.div_add_mod (ch.space s) t.size
  have less := Nat.mod_lt (ch.space s) positive
  rw [← full_def, Nat.mul_comm] at split
  have few : full ≤ row.blocks := by
    rw [full_def]
    exact Nat.div_le_of_le_mul (by rwa [Nat.mul_comm])
  obtain ⟨ends, moved⟩ := @Lawful.moveBlocks _ _ _ _ lawful t.size (t.extent : Offset) full
    (row.place t) s (by omega)
  let next : Row := { row with
    blocks := row.blocks - full, start := row.start + (full : Offset) * (t.extent : Offset) }
  intro r
  have r_eq : r = (next, ch.moveBlocks t.size (t.extent : Offset) full (base + row.place t) s) := by
    simp only [r, fullBlocks, ← full_def]
    rfl
  rw [r_eq]
  generalize ch.moveBlocks t.size (t.extent : Offset) full (base + row.place t) s = m
    at ends moved ⊢
  have space : ch.space m.2 = ch.space s % t.size := by
    have := lawful.space moved
    rw [length_shift, length_copies, length_line] at this
    omega
  have fewer : ch.space m.2 < next.left := by
    rw [space]
    exact less.trans_eq whole.symm
  refine ⟨fewer, ?_⟩
  -- The blocks taken and the blocks left make up the row.
  have todo : row.todo t
      = shift (row.place t) (copies full (t.extent : Offset) (line t.size)) ++
        shift next.start (copies (row.blocks - full) (t.extent : Offset)
          (shift (t.trueLb : Offset) (line t.size))) := by
    obtain ⟨rest, blocks⟩ := Nat.exists_eq_add_of_le few
    have place : (t.trueLb : Offset) + row.start = row.place t := by
      rw [Row.place, start, add_zero]
    have first : shift row.start (copies full (t.extent : Offset)
          (shift (t.trueLb : Offset) (line t.size)))
        = shift (row.place t) (copies full (t.extent : Offset) (line t.size)) := by
      rw [← shift_copies, shift_shift, place]
    rw [Row.todo_start sound.blocks_pos whole start, blocks, Nat.add_sub_cancel_left, copies_add,
      shift_append, first, shift_shift, add_comm ((full : Offset) * (t.extent : Offset))]
  by_cases last : row.blocks - full = 0
  · -- The blocks end with the space.
    have none : ch.space m.2 = 0 := by
      have : full = row.blocks := by omega
      rw [this] at split
      omega
    dsimp only
    rw [none]
    have after := lawful.trans moved (lawful.move_none m.2 m.1)
    have left := lawful.space (lawful.move_none m.2 m.1)
    rw [List.append_nil] at after
    refine ⟨_, [], ?_, after, ?_, fun other => absurd rfl other⟩
    · rw [todo, last, copies_zero, shift_nil]
    · omega
  · -- A part of the next block follows, which is left begun.
    have blocks : 0 < next.blocks := Nat.pos_of_ne_zero last
    have next_sound : next.Sound t := { sound with blocks_pos := blocks }
    have next_todo := Row.todo_start (t := t) blocks whole start
    have user : m.1 = base + next.place t := by
      rw [ends]
      simp only [Row.place]
      ring
    obtain ⟨gone, left, split', step, none, rest⟩ := lawful.row_begin next_sound fewer
    rw [user]
    refine ⟨_, left, ?_, lawful.trans moved step, none, rest⟩
    rw [todo, ← next_todo, split', List.append_assoc]

/-- Full blocks and the start of one more, from the start of a block on or inside one that does not
end in the space. -/
theorem Lawful.row_step (positive : 0 < t.size)
    (sound : row.Sound t) (enough : ch.space s ≤ (row.todo t).length)
    (either : row.left = t.size ∨ ch.space s < row.left) :
    let r := ch.fullBlocks t base row s
    ch.space r.2.2 < r.1.left ∧
      RowStep ch moves t (row.todo t) s (r.1.advance (ch.space r.2.2))
        (ch.move r.2.2 r.2.1 (ch.space r.2.2)) := by
  rcases either with whole | fewer
  · refine lawful.row_whole positive sound whole (enough.trans_eq ?_)
    obtain ⟨more, blocks⟩ : ∃ more, row.blocks = more + 1 :=
      ⟨row.blocks - 1, by have := sound.blocks_pos; omega⟩
    rw [Row.length_todo, blocks, Nat.add_sub_cancel, Nat.succ_mul, whole, Nat.add_comm]
  · -- The space ends inside the present block.
    have none : ch.space s / t.size = 0 := Nat.div_eq_of_lt (fewer.trans_le sound.left_le)
    have step := lawful.row_begin sound fewer
    simpa [fullBlocks, none, Channel.moveBlocks, fewer] using step

end Rows

end Channel

end EduMpi.Ddt
