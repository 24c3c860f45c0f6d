import EduMpi.Ddt.OptimizeLaws

/-! What a whole run of the pass does to the bytes of a description. -/

namespace EduMpi.Ddt

open Ints Strided List Elem

namespace Pass

/-- What the next turn needs so that the element it takes in is not lost: a merged count that
fits its field. -/
def FuseFits (arch : Arch) (p : Pass) : Prop :=
  match p.rest with
  | .elem e :: _ => MergeFits arch p.last e
  | .loop l :: rest =>
    l.contiguous = true → MergeFits arch p.last ((compress l rest).1.create arch)
  | _ => True

/-- What the next turn needs so that a loop flagged as contiguous may become one element: the
records inside it stand for the block of that element. -/
def LoopFits (arch : Arch) (p : Pass) : Prop :=
  match p.rest with
  | .loop l :: rest =>
    l.contiguous = true →
      bytesOf arch (expand arch (loopBody l rest))
        = shift ((compress l rest).1.disp : Offset) (line ((compress l rest).1.block arch))
  | _ => True

/-- A condition on the pass before each of the next `n` turns. -/
def Meets (arch : Arch) (condition : Pass → Prop) (n : Nat) (p : Pass) : Prop :=
  ∀ i < n, condition ((step arch)^[i] p)

variable {arch : Arch} {p q : Pass} {condition : Pass → Prop} {n k : Nat} {body : List Entry}

theorem meets_add :
    Meets arch condition (n + k) p ↔
      Meets arch condition n p ∧ Meets arch condition k ((step arch)^[n] p) := by
  -- The turns split into those before the cut and those behind it.
  refine ⟨fun all => ⟨fun i lt => all i (by omega), fun i lt => ?_⟩, fun ⟨front, back⟩ i lt => ?_⟩
  · rw [← Function.iterate_add_apply]
    exact all _ (by omega)
  · rcases Nat.lt_or_ge i n with before | behind
    · exact front i before
    · obtain ⟨j, rfl⟩ := Nat.exists_eq_add_of_le' behind
      rw [Function.iterate_add_apply]
      exact back j (by omega)

theorem meets_one : Meets arch condition 1 p ↔ condition p := by
  simp [Meets]

end Pass

section Kept

variable {fits other : Prop} {before middle after read more wrote added : List Byte}

/-- Losses add up: what two parts keep is what the whole keeps. -/
theorem Kept.trans (one : Kept fits before middle read wrote)
    (two : Kept other middle after more added) :
    Kept (fits ∧ other) before after (read ++ more) (wrote ++ added) where
  le := by
    have := one.le
    have := two.le
    simp only [length_append]
    omega
  exact holds := by
    rw [append_assoc, two.exact holds.2, ← append_assoc, one.exact holds.1, append_assoc]
  fits same := by
    have := one.le
    have := two.le
    simp only [length_append] at same
    exact ⟨one.fits (by omega), two.fits (by omega)⟩

/-- Lists that are joined from parts, none of them too long, agree only part by part. -/
theorem append_eq_append_iff_of_le {A : Type*} {s t u v : List A} (first : s.length ≤ u.length)
    (second : t.length ≤ v.length) : s ++ t = u ++ v ↔ s = u ∧ t = v := by
  refine ⟨fun same => append_inj same ?_, fun ⟨left, right⟩ => left ▸ right ▸ rfl⟩
  have := congrArg List.length same
  simp only [length_append] at this
  omega

end Kept

section Loops

variable {arch : Arch} {l : Loop} {body tail : List Entry} {b : List Slot} {f : EndLoop}

section

variable (sound : LoopSound arch l body b f)

include sound

theorem loopBody_eq : loopBody l (body ++ .endLoop f :: tail) = body := by
  simp [loopBody, sound.items]

theorem loopEnd_eq : loopEnd l (body ++ .endLoop f :: tail) = f := by
  simp [loopEnd, sound.items]

theorem drop_loop : (body ++ .endLoop f :: tail).drop l.items = tail := by
  simp [sound.items]

end

@[simp]
theorem dropLoops_loop (l : Loop) (rest : List Entry) :
    dropLoops (.loop l :: rest) = dropLoops rest := rfl

/-- The end of a loop among the records keeps them from being of one type. -/
theorem sameType_endLoop (t : Basic) (before after : List Entry) :
    sameType t (before ++ .endLoop f :: after) = none := by
  induction before with
  | nil => rfl
  | cons entry before ih =>
    cases entry with
    | elem e => simp [sameType, ih]
    | loop _ => rfl
    | endLoop _ => rfl

/-- Elements of one type have at least the bytes of one block each. -/
theorem Shaped.sameType_le {t : Basic} {n : Nat} (shaped : Shaped arch body b)
    (same : sameType t body = some n) : n * arch.size t ≤ (bytesOf arch b).length := by
  induction shaped generalizing n with
  | nil => simp [← Option.some.inj same]
  | elem e sound _ ih =>
    simp only [sameType] at same
    split at same
    · rename_i type
      obtain ⟨k, rest, rfl⟩ := Option.map_eq_some_iff.mp same
      have block := sound.block_le arch
      have := ih rest
      rw [Elem.block, type] at block
      rw [bytesOf_append, bytesOf_slots, length_append, Nat.add_mul]
      omega
    · cases same
  | loop l f _ _ _ _ _ => cases same

/-- The first element of a description that has one. -/
theorem Shaped.dropLoops_eq (shaped : Shaped arch body b) (filled : body ≠ []) :
    ∃ e others, e.Sound ∧ ∀ tail, dropLoops (body ++ tail) = .elem e :: (others ++ tail) := by
  induction shaped with
  | nil => exact absurd rfl filled
  | elem e sound _ _ => exact ⟨e, _, sound, fun tail => rfl⟩
  | @loop _ rest _ _ l f sound _ _ body _ =>
    obtain ⟨e, others, first, eq⟩ := body sound.filled
    refine ⟨e, others ++ .endLoop f :: rest, first, fun tail => ?_⟩
    simpa using eq (.endLoop f :: rest ++ tail)

/-- A loop taken for one element: its count and place are right, its block is not too long. -/
theorem compress_sound (sound : LoopSound arch l body b f) (shaped : Shaped arch body b)
    (small : (bytesOf arch b).length < 2 ^ 64) (tail : List Entry) :
    (compress l (body ++ .endLoop f :: tail)).1.Sound ∧
      (compress l (body ++ .endLoop f :: tail)).1.count = l.loops ∧
      (compress l (body ++ .endLoop f :: tail)).1.extent = l.extent ∧
      (compress l (body ++ .endLoop f :: tail)).1.block arch ≤ (bytesOf arch b).length := by
  unfold compress
  rw [loopBody_eq sound, loopEnd_eq sound]
  -- The element that stands for the loop is read behind the starts of loops inside it.
  obtain ⟨e, others, first, eq⟩ := shaped.dropLoops_eq sound.filled
  have drops := eq []
  rw [append_nil, append_nil] at drops
  rw [drops]
  dsimp only
  have positive : 0 < (bytesOf arch b).length := by
    rw [length_pos_iff]
    exact fun empty => sound.filled (shaped.eq_nil (bytesOf_eq_nil.mp empty))
  split
  · -- One type: the body has no loop inside, and every element counts at least once.
    rename_i n same
    have bound : (e.blocklen + n) * arch.size e.type ≤ (bytesOf arch b).length := by
      cases shaped with
      | nil => exact absurd rfl sound.filled
      | elem e' sound' rest =>
        obtain ⟨rfl, rfl⟩ := by simpa [dropLoops] using drops
        exact Shaped.sameType_le (rest.elem e' sound') (by simp [sameType, same])
      | loop l' f' sound' inner rest =>
        obtain ⟨e', others', _, inside⟩ := inner.dropLoops_eq sound'.filled
        rw [cons_append, dropLoops_loop, inside] at drops
        obtain ⟨rfl, rfl⟩ := by simpa using drops
        rw [sameType_endLoop] at same
        cases same
    have blocklen := Nat.le_mul_of_pos_right (e.blocklen + n) (arch.size_pos e.type)
    have fits : e.blocklen + n < 2 ^ 64 := by omega
    rw [Nat.mod_eq_of_lt fits]
    exact ⟨⟨sound.loops_pos, sound.loops_lt, Nat.add_pos_left first.blocklen_pos _⟩, rfl, rfl,
      bound⟩
  · refine ⟨⟨sound.loops_pos, sound.loops_lt, sound.size ▸ positive⟩, rfl, rfl, ?_⟩
    simp [Elem.block, arch.size_uint1, sound.size]

end Loops

namespace Pass

/-- What `n` turns do that read all records before `tail`, which stand for the bytes `m`: they
write `added`, after they have taken the bytes for `seen`. -/
structure Reading (arch : Arch) (p : Pass) (n : Nat) (tail : List Entry) (m : List Byte)
    (added : List Entry) (w : List Slot) (seen : List Byte) : Prop where
  rest : ((step arch)^[n] p).rest = tail
  opened : ((step arch)^[n] p).opened = p.opened
  out : ((step arch)^[n] p).out = p.out ++ added
  pending : Pending ((step arch)^[n] p).last
  written : Written arch (Meets arch (FuseFits arch) n p ∧ Meets arch (LoopFits arch) n p) added w
  seen_le : seen.length ≤ m.length
  seen_iff : seen = m ↔ Meets arch (LoopFits arch) n p
  kept : Kept (Meets arch (FuseFits arch) n p) (p.last.bytes arch)
    (((step arch)^[n] p).last.bytes arch) seen (bytesOf arch w)

variable {arch : Arch} {p : Pass} {n k : Nat} {tail : List Entry}

/-- Readings follow one another. -/
theorem Reading.trans {between : List Entry} {m m' : List Byte} {a a' : List Entry}
    {w w' : List Slot} {s s' : List Byte} (one : Reading arch p n between m a w s)
    (two : Reading arch ((step arch)^[n] p) k tail m' a' w' s') :
    Reading arch p (n + k) tail (m ++ m') (a ++ a') (w ++ w') (s ++ s') := by
  have turns : (step arch)^[n + k] p = (step arch)^[k] ((step arch)^[n] p) := by
    rw [Nat.add_comm, Function.iterate_add_apply]
  constructor
  · rw [turns, two.rest]
  · rw [turns, two.opened, one.opened]
  · rw [turns, two.out, one.out, append_assoc]
  · rw [turns]
    exact two.pending
  · -- Both readings have to be free of losses for the whole to be.
    simp only [meets_add]
    exact (one.written.mono fun holds => ⟨holds.1.1, holds.2.1⟩).append
      (two.written.mono fun holds => ⟨holds.1.2, holds.2.2⟩)
  · simp only [length_append]
    exact Nat.add_le_add one.seen_le two.seen_le
  · rw [append_eq_append_iff_of_le one.seen_le two.seen_le, meets_add, one.seen_iff, two.seen_iff]
  · rw [turns, meets_add, bytesOf_append]
    exact one.kept.trans two.kept

/-- One turn that takes in an element for the bytes of what it reads. -/
theorem reading_fuse {e : Elem} {mixed : Bool} {m : List Byte}
    (turn : step arch p = { p with rest := tail, restricted := mixed }.fuse arch e)
    (fuse : FuseFits arch p ↔ MergeFits arch p.last e) (pending : Pending p.last) (sound : e.Sound)
    (small : (p.last.bytes arch).length + (e.bytes arch).length < 2 ^ 64)
    (seen_le : (e.bytes arch).length ≤ m.length) (seen_iff : e.bytes arch = m ↔ LoopFits arch p) :
    ∃ added w, Reading arch p 1 tail m added w (e.bytes arch) := by
  obtain ⟨added, w, wrote, after, kept⟩ :=
    fuse_wrote (p := { p with rest := tail, restricted := mixed }) pending sound small
  rw [← turn] at wrote after kept
  refine ⟨added, w, wrote.rest, wrote.opened, wrote.out, after, wrote.written _, seen_le, ?_, ?_⟩
  · rw [meets_one]
    exact seen_iff
  · rw [meets_one, fuse]
    exact kept

/-- The pending element is written as it is. -/
theorem flush_wrote (pending : Pending p.last) (small : (p.last.bytes arch).length < 2 ^ 64) :
    ∃ added w, Wrote arch p (p.flush arch) added w ∧ (p.flush arch).last.count = 0 ∧
      bytesOf arch w = p.last.bytes arch := by
  unfold flush
  split
  · rename_i none
    exact ⟨[], [], ⟨rfl, rfl, (append_nil _).symm, fun _ => .nil⟩, none, (bytes_of_count none).symm⟩
  · rename_i some
    rw [length_bytes] at small
    refine ⟨_, _, ⟨rfl, rfl, rfl, fun _ => .single ((pending.resolve_left some).create small)⟩,
      rfl, ?_⟩
    rw [bytesOf_slots, bytes_create small]

/-- A short body has no loop inside; written out, its elements are its bytes, moved. -/
theorem movedElems_written {b : List Slot} (shaped : Shaped arch body b) (short : body.length ≤ 2)
    (small : (bytesOf arch b).length < 2 ^ 64) (disp : Int) :
    ∃ w, (∀ exact, Written arch exact (movedElems arch disp body) w) ∧
      bytesOf arch w = shift (disp : Offset) (bytesOf arch b) := by
  -- By induction on the body, which is too short for a loop.
  induction shaped with
  | nil => exact ⟨[], fun _ => .nil, rfl⟩
  | elem e sound _ ih =>
    simp only [bytesOf_append, bytesOf_slots, length_append, length_bytes,
      length_cons] at small short
    obtain ⟨w, written, bytes⟩ := ih (by omega) (by omega)
    have fits : e.count * e.block arch < 2 ^ 64 := by omega
    have moved : Elem.Sound { e with disp := int64 (e.disp + disp) } :=
      { sound with }
    refine ⟨_, fun exact => (written exact).elem _ (moved.create fits), ?_⟩
    have created := bytes_create (e := { e with disp := int64 (e.disp + disp) }) fits
    rw [bytesOf_append, bytes, bytesOf_slots, created, ← bytesOf_slots, slots_move,
      bytesOf_append, shift_append, bytesOf_shift]
  | loop l f sound _ _ _ _ =>
    -- A loop has a start, an end and something in between.
    have := length_pos_iff.mpr sound.filled
    simp only [length_cons, length_append] at short
    omega

/-- An unrolled loop writes its turns one after the other. -/
theorem unroll_written {b : List Slot} (shaped : Shaped arch body b) (short : body.length ≤ 2)
    (small : (bytesOf arch b).length < 2 ^ 64) (extent : Int) (n : Nat) :
    ∃ w, (∀ exact, Written arch exact
        ((List.range n).flatMap fun i : Nat => movedElems arch (i * extent) body) w) ∧
      bytesOf arch w = copies n (extent : Offset) (bytesOf arch b) := by
  induction n with
  | zero => exact ⟨[], fun _ => .nil, rfl⟩
  | succ n ih =>
    obtain ⟨w, written, bytes⟩ := ih
    obtain ⟨v, last, more⟩ := movedElems_written shaped short small (n * extent)
    refine ⟨w ++ v, fun exact => ?_, ?_⟩
    · simpa [range_succ] using (written exact).append (last exact)
    · rw [bytesOf_append, bytes, more, copies_succ, Int.cast_mul, Int.cast_natCast]

/-- Closing a loop tells its start how many records were written since. -/
theorem close_eq {q : Pass} {front body : List Entry} {l : Loop} {opened : List Nat} (f : EndLoop)
    (out : q.out = front ++ .loop l :: body) (open_ : q.opened = (front.length + 1) :: opened) :
    q.close f = { q with
      opened
      out := front ++ (.loop { l with items := body.length + 1 } :: body ++
        [.endLoop { f with items := body.length + 1 }]) } := by
  -- The start of the loop is patched in place once its length is known.
  have patch : ∀ (front : List Entry) (change : Entry → Entry),
      (front ++ .loop l :: body).modify front.length change
        = front ++ change (.loop l) :: body := by
    intro front change
    induction front with
    | nil => rfl
    | cons entry front ih => simp [ih]
  have items : q.out.length - (front.length + 1) + 1 = body.length + 1 := by
    rw [out, length_append, length_cons]
    omega
  simp only [close, open_, items]
  rw [out, Nat.add_sub_cancel, patch]
  simp

section Loop

variable {l : Loop} {f : EndLoop} {body : List Entry} {b : List Slot}
  (rest : p.rest = .loop l :: body ++ .endLoop f :: tail) (pending : Pending p.last)
  (sound : LoopSound arch l body b f) (shaped : Shaped arch body b)
  (small : (p.last.bytes arch).length + l.loops * (bytesOf arch b).length < 2 ^ 64)

include rest pending sound shaped small

/-- One turn that takes a loop flagged as contiguous for an element. -/
theorem reading_contiguous (flagged : l.contiguous = true) :
    ∃ added w seen,
      Reading arch p 1 tail (copies l.loops (l.extent : Offset) (bytesOf arch b)) added w seen := by
  have once := Nat.le_mul_of_pos_left (bytesOf arch b).length sound.loops_pos
  obtain ⟨element, count, extent, block⟩ := compress_sound sound shaped (by omega) tail
  obtain ⟨c, made⟩ : ∃ c, (compress l (body ++ .endLoop f :: tail)).1 = c := ⟨_, rfl⟩
  rw [made] at element count extent block
  have bytes_le : c.count * c.block arch ≤ l.loops * (bytesOf arch b).length :=
    count ▸ Nat.mul_le_mul_left _ block
  have total : c.count * c.block arch < 2 ^ 64 := by omega
  have created := bytes_create total
  have seen_eq : c.bytes arch
      = copies l.loops (l.extent : Offset) (shift (c.disp : Offset) (line (c.block arch))) := by
    rw [Elem.bytes, count, extent, shift_copies]
  -- The loop is read exactly if its body is one line of bytes at the place of the element.
  have loop : LoopFits arch p ↔ shift (c.disp : Offset) (line (c.block arch)) = bytesOf arch b := by
    simp only [LoopFits, rest, cons_append, flagged, true_implies, loopBody_eq sound, made,
      shaped.denotes.expand_eq]
    exact eq_comm
  have fuse : FuseFits arch p ↔ MergeFits arch p.last (c.create arch) := by
    simp [FuseFits, rest, flagged, made]
  obtain ⟨mixed, turn⟩ : ∃ mixed, step arch p
      = { p with rest := tail, restricted := mixed }.fuse arch (c.create arch) := by
    simp only [step, rest, cons_append, flagged, drop_loop sound, made]
    exact ⟨_, rfl⟩
  obtain ⟨added, w, reading⟩ := reading_fuse turn fuse pending (element.create total)
    (m := copies l.loops (l.extent : Offset) (bytesOf arch b))
    (by rw [created, length_bytes (e := c)]; omega)
    (by rw [created, length_bytes, length_copies]; exact bytes_le)
    (by rw [created, seen_eq, copies_left_inj sound.loops_pos, loop])
  exact ⟨added, w, _, reading⟩

/-- One turn that unrolls a loop. -/
theorem reading_unrolled (flagged : l.contiguous = false) (few : l.items ≤ 3 ∧ l.loops ≤ 2) :
    ∃ added w, Reading arch p 1 tail (copies l.loops (l.extent : Offset) (bytesOf arch b)) added w
      (copies l.loops (l.extent : Offset) (bytesOf arch b)) := by
  have once := Nat.le_mul_of_pos_left (bytesOf arch b).length sound.loops_pos
  have items := sound.items
  obtain ⟨front, u, wrote, none, last⟩ := @flush_wrote arch p pending (by omega)
  obtain ⟨v, written, turns⟩ :=
    unroll_written shaped (by omega) (by omega) l.extent l.loops
  -- One turn writes what is pending and then every copy by itself.
  have turn : (step arch)^[1] p = { p.flush arch with
      rest := tail
      out := (p.flush arch).out ++
        (List.range l.loops).flatMap fun i : Nat => movedElems arch (i * l.extent) body } := by
    simp [step, rest, flagged, few, drop_loop sound, unroll, loopBody_eq sound]
  have loop : LoopFits arch p := by simp [LoopFits, rest, flagged]
  have fuse : FuseFits arch p := by simp [FuseFits, rest, flagged]
  refine ⟨_, u ++ v, ?_, ?_, ?_, ?_, (wrote.written _).append (written _), le_rfl, ?_, ?_⟩
  · rw [turn]
  · rw [turn, wrote.opened]
  · rw [turn, wrote.out, append_assoc]
  · rw [turn]
    exact .inl none
  · simp [meets_one, loop]
  · rw [turn, meets_one]
    refine .of_exact fuse ?_
    rw [bytesOf_append, last, turns, bytes_of_count none, append_nil]

/-- The turns that open a loop, read its body and close it. -/
theorem reading_loop {a : List Entry} {w : List Slot} {s : List Byte}
    (flagged : l.contiguous = false) (many : ¬(l.items ≤ 3 ∧ l.loops ≤ 2))
    (inner : Reading arch (step arch p) n (.endLoop f :: tail) (bytesOf arch b) a w s) :
    ∃ added v, Reading arch p (n + 2) tail (copies l.loops (l.extent : Offset) (bytesOf arch b))
      added v (copies l.loops (l.extent : Offset) s) := by
  have once := Nat.le_mul_of_pos_left (bytesOf arch b).length sound.loops_pos
  obtain ⟨front, u, wrote, none, last⟩ := @flush_wrote arch p pending (by omega)
  -- One turn for the start of the loop, as many as the body needs, and one for its end.
  have opens : step arch p = { p.flush arch with
      rest := body ++ .endLoop f :: tail
      out := (p.flush arch).out ++ [.loop l]
      opened := ((p.flush arch).out.length + 1) :: p.opened } := by
    simp [step, rest, flagged, many, wrote.opened]
  have fresh : (step arch p).last.bytes arch = [] := by
    rw [opens]
    exact bytes_of_count none
  have kept := inner.kept
  rw [fresh] at kept
  have bound := kept.le
  have seen := inner.seen_le
  rw [length_nil, Nat.zero_add] at bound
  -- The turn at the end of the loop writes what is pending and closes the loop.
  obtain ⟨back, v, wrote', none', last'⟩ :=
    @flush_wrote arch { (step arch)^[n] (step arch p) with rest := tail } inner.pending
      (by dsimp only; omega)
  have out : ({ (step arch)^[n] (step arch p) with rest := tail }.flush arch).out
      = (p.flush arch).out ++ .loop l :: (a ++ back) := by
    rw [wrote'.out]
    rw [inner.out, opens]
    simp
  have opened : ({ (step arch)^[n] (step arch p) with rest := tail }.flush arch).opened
      = ((p.flush arch).out.length + 1) :: p.opened := by
    rw [wrote'.opened]
    rw [inner.opened, opens]
  have turns : (step arch)^[n + 2] p
      = ({ (step arch)^[n] (step arch p) with rest := tail }.flush arch).close f := by
    rw [Function.iterate_succ_apply', Function.iterate_succ_apply, step, inner.rest]
  rw [close_eq f out opened] at turns
  -- The turns at the start and at the end of the loop lose nothing.
  have meets : ∀ condition : Pass → Prop, condition p →
      condition ((step arch)^[n] (step arch p)) →
      (Meets arch condition (n + 2) p ↔ Meets arch condition n (step arch p)) := by
    intro condition first final
    rw [Nat.add_comm n 2, show 2 + n = 1 + (n + 1) by omega, meets_add, meets_one, meets_add,
      meets_one]
    simp [first, final]
  have fuses := meets (FuseFits arch) (by simp [FuseFits, rest, flagged])
    (by simp [FuseFits, inner.rest])
  have loops := meets (LoopFits arch) (by simp [LoopFits, rest, flagged])
    (by simp [LoopFits, inner.rest])
  have content : bytesOf arch (w ++ v)
      = bytesOf arch w ++ ((step arch)^[n] (step arch p)).last.bytes arch := by
    rw [bytesOf_append, last']
  have written : LoopWritten arch
      (Meets arch (FuseFits arch) (n + 2) p ∧ Meets arch (LoopFits arch) (n + 2) p)
      { l with items := (a ++ back).length + 1 } (a ++ back) (w ++ v)
      { f with items := (a ++ back).length + 1 } := by
    refine ⟨flagged, sound.loops_pos, sound.loops_lt, rfl, fun exact => ?_⟩
    -- Nothing was lost, so the body still has its bytes.
    have same : bytesOf arch (w ++ v) = bytesOf arch b := by
      rw [content, kept.exact (fuses.mp exact.1), nil_append, inner.seen_iff.mpr (loops.mp exact.2)]
    refine ⟨fun empty => ?_, same ▸ sound.size⟩
    have nothing := (empty ▸ (inner.written.append (wrote'.written _)).denotes).unique .nil
    rw [nothing] at same
    exact sound.filled (shaped.eq_nil (bytesOf_eq_nil.mp same.symm))
  have inside : Written arch
      (Meets arch (FuseFits arch) (n + 2) p ∧ Meets arch (LoopFits arch) (n + 2) p)
      (a ++ back) (w ++ v) :=
    (inner.written.mono fun exact => ⟨fuses.mp exact.1, loops.mp exact.2⟩).append (wrote'.written _)
  refine ⟨_, _, ?_, ?_, ?_, ?_, (wrote.written _).append (inside.loop _ _ written .nil), ?_, ?_, ?_⟩
  · rw [turns, wrote'.rest]
  · rw [turns]
  · rw [turns, wrote.out]
    simp
  · rw [turns]
    exact .inl none'
  · simp only [length_copies]
    exact Nat.mul_le_mul_left _ seen
  · rw [copies_left_inj sound.loops_pos, inner.seen_iff, loops]
  · rw [turns, bytes_of_count none', append_nil, bytesOf_append, bytesOf_copies, last,
      content]
    have lengths : ∀ x : Nat, x ≤ s.length → l.loops * x ≤ l.loops * s.length :=
      fun x le => Nat.mul_le_mul_left _ le
    -- Lengths are compared for one turn of the loop, which runs at least once.
    refine ⟨?_, fun fits => ?_, fun same => ?_⟩
    · have := lengths _ bound
      simp only [length_append, length_copies, length_nil]
      omega
    · rw [kept.exact (fuses.mp fits), nil_append, append_nil]
    · simp only [length_append, length_copies, length_nil] at same
      refine fuses.mpr (kept.fits ?_)
      rw [length_nil, Nat.zero_add]
      exact Nat.eq_of_mul_eq_mul_left sound.loops_pos (by omega)

/-- A loop on its own, read whatever way the pass chooses. -/
theorem reading_any_loop
    (inner : ∀ (q : Pass) (tail : List Entry), q.rest = body ++ tail → Pending q.last →
      (q.last.bytes arch).length + (bytesOf arch b).length < 2 ^ 64 →
      ∃ n ≤ body.length, ∃ added w seen, Reading arch q n tail (bytesOf arch b) added w seen) :
    ∃ n ≤ body.length + 2, ∃ added w seen,
      Reading arch p n tail (copies l.loops (l.extent : Offset) (bytesOf arch b)) added w seen := by
  cases flagged : l.contiguous with
  | true =>
    exact ⟨1, by omega, reading_contiguous rest pending sound shaped small flagged⟩
  | false =>
    -- Short loops of few turns are written out; every other one is kept.
    by_cases few : l.items ≤ 3 ∧ l.loops ≤ 2
    · obtain ⟨added, w, reading⟩ := reading_unrolled rest pending sound shaped small flagged few
      exact ⟨1, by omega, added, w, _, reading⟩
    -- The body is read by turns of its own, with nothing pending before it.
    have once := Nat.le_mul_of_pos_left (bytesOf arch b).length sound.loops_pos
    obtain ⟨_, _, wrote, none, _⟩ := @flush_wrote arch p pending (by omega)
    have opened : (step arch p).rest = body ++ .endLoop f :: tail ∧
        (step arch p).last.count = 0 := by
      simp [step, rest, flagged, few, none]
    obtain ⟨n, short, a, w, s, reading⟩ := inner (step arch p) (.endLoop f :: tail) opened.1
      (.inl opened.2) (by rw [bytes_of_count opened.2, length_nil]; omega)
    obtain ⟨added, v, whole⟩ :=
      reading_loop rest pending sound shaped small flagged few reading
    exact ⟨n + 2, by omega, added, v, _, whole⟩

end Loop

/-- Reading a description writes it anew. -/
theorem reading_shaped {desc : List Entry} {m : List Slot} (shaped : Shaped arch desc m) :
    ∀ (p : Pass) (tail : List Entry), p.rest = desc ++ tail → Pending p.last →
      (p.last.bytes arch).length + (bytesOf arch m).length < 2 ^ 64 →
      ∃ n ≤ desc.length, ∃ added w seen, Reading arch p n tail (bytesOf arch m) added w seen := by
  induction shaped with
  | nil =>
    -- No turn is taken and nothing is written.
    intro p tail rest pending _
    refine ⟨0, le_rfl, [], [], [], rest, rfl, (append_nil _).symm, pending, .nil, le_rfl, ?_,
      .of_exact ?_ (by simp)⟩
    · simp [Meets]
    · simp [Meets]
  -- An element joins what is pending, or pushes it out.
  | @elem others _ e sound _ ih =>
    intro p tail rest pending small
    rw [bytesOf_append, bytesOf_slots, length_append] at small
    have next : p.rest = .elem e :: (others ++ tail) := rest
    have room : (p.last.bytes arch).length + (e.bytes arch).length < 2 ^ 64 := by omega
    have turn : step arch p = { p with rest := others ++ tail }.fuse arch e := by
      simp [step, next]
    obtain ⟨a, w, first⟩ := reading_fuse turn (by simp [FuseFits, next]) pending sound room le_rfl
      (by simp [LoopFits, next])
    have bound := first.kept.le
    obtain ⟨n, short, b, v, s, back⟩ := ih ((step arch)^[1] p) tail first.rest first.pending
      (by omega)
    refine ⟨1 + n, ?_, a ++ b, w ++ v, e.bytes arch ++ s, ?_⟩
    · simp only [length_cons]
      omega
    · rw [bytesOf_append, bytesOf_slots]
      exact first.trans back
  -- A loop is read by the three ways above, and what is behind it by the hypothesis.
  | @loop body others b _ l f sound shaped _ inner after =>
    intro p tail rest pending small
    rw [bytesOf_append, bytesOf_copies, length_append, length_copies] at small
    have next : p.rest = .loop l :: body ++ .endLoop f :: (others ++ tail) := by
      rw [rest]
      simp
    obtain ⟨n, few, a, w, s, first⟩ :=
      reading_any_loop next pending sound shaped (by omega) inner
    have bound := first.kept.le
    have seen := first.seen_le
    rw [length_copies] at seen
    obtain ⟨k, short, b', v, s', back⟩ := after ((step arch)^[n] p) tail first.rest first.pending
      (by omega)
    refine ⟨n + k, ?_, a ++ b', w ++ v, s ++ s', ?_⟩
    · simp only [length_cons, length_append]
      omega
    · rw [bytesOf_append, bytesOf_copies]
      exact first.trans back

/-- Behind the last record the pass only writes what is pending, once. -/
theorem finish (none : p.rest = []) (k : Nat) : (step arch)^[k + 1] p = p.flush arch := by
  have first : step arch p = p.flush arch := by simp [step, none]
  have quiet : ∀ q : Pass, q.rest = [] → q.last.count = 0 → step arch q = q := by
    intro q rest count
    simp [step, rest, flush, count]
  rw [Function.iterate_succ_apply, first]
  refine Function.iterate_fixed (quiet _ ?_ ?_) k
  · unfold flush
    split <;> exact none
  · unfold flush
    split
    · assumption
    · rfl

end Pass

/-- When no turn of the pass loses anything: every merged count fits, and every loop flagged as
contiguous is one block. -/
def PassFits (arch : Arch) (desc : List Entry) : Prop :=
  ∀ i, ((Pass.step arch)^[i] (Pass.start desc)).FuseFits arch ∧
    ((Pass.step arch)^[i] (Pass.start desc)).LoopFits arch

section Commit

open Pass

variable {arch : Arch} {desc : List Entry} {m : List Slot}

/-- The whole pass: it keeps the bytes exactly when every turn fits, and then it writes loops that
know what is in them. -/
theorem optimizeShort_spec (shaped : Shaped arch desc m)
    (small : (bytesOf arch m).length < 2 ^ 64) :
    ∃ w, Written arch (PassFits arch desc) (optimizeShort arch desc).out w ∧
      (bytesOf arch w = bytesOf arch m ↔ PassFits arch desc) := by
  have none : (start desc).last.bytes arch = [] := bytes_of_count rfl
  obtain ⟨n, short, added, w, seen, reading⟩ := reading_shaped shaped (start desc) []
    (by simp [start]) (.inl rfl) (by rw [none]; simpa using small)
  have kept := reading.kept
  rw [none] at kept
  have seen_le := reading.seen_le
  have bound := kept.le
  rw [length_nil] at bound
  -- The conditions behind the last record are empty.
  have idle : ∀ i, n ≤ i → ((step arch)^[i] (start desc)).rest = [] := by
    intro i le
    obtain ⟨j, rfl⟩ := Nat.exists_eq_add_of_le' le
    rw [Function.iterate_add_apply]
    cases j with
    | zero => exact reading.rest
    | succ j =>
      rw [finish reading.rest]
      unfold flush
      split <;> exact reading.rest
  -- The turns after the last record have no condition, so that finitely many remain.
  have fits_iff : PassFits arch desc ↔
      Meets arch (FuseFits arch) n (start desc) ∧ Meets arch (LoopFits arch) n (start desc) := by
    refine ⟨fun all => ⟨fun i _ => (all i).1, fun i _ => (all i).2⟩, fun ⟨fuse, loop⟩ i => ?_⟩
    rcases Nat.lt_or_ge i n with before | behind
    · exact ⟨fuse i before, loop i before⟩
    · simp [FuseFits, LoopFits, idle i behind]
  obtain ⟨back, v, wrote, -, last⟩ := @flush_wrote arch _ reading.pending (by omega)
  have out : (optimizeShort arch desc).out = added ++ back := by
    obtain ⟨k, turns⟩ := Nat.exists_eq_add_of_le short
    rw [optimizeShort, show desc.length + 1 = k + 1 + n by omega, Function.iterate_add_apply,
      finish reading.rest, wrote.out, reading.out]
    rfl
  refine ⟨w ++ v, ?_, ?_⟩
  · rw [out, fits_iff]
    exact reading.written.append (wrote.written _)
  · rw [bytesOf_append, last, fits_iff, ← reading.seen_iff]
    refine ⟨fun same => ?_, fun ⟨fuse, loop⟩ => ?_⟩
    · -- Equal lists have equal lengths, so nothing was lost on the way.
      have lengths := congrArg List.length same
      rw [length_append] at lengths
      have fuse := kept.fits (by rw [length_nil]; omega)
      refine ⟨fuse, ?_⟩
      rw [← same, kept.exact fuse, nil_append]
    · rw [kept.exact fuse, nil_append, loop]

/-- The pass keeps the byte offsets exactly when every turn of it fits. -/
theorem optimizeShort_keeps_iff (shaped : Shaped arch desc m)
    (small : (bytesOf arch m).length < 2 ^ 64) :
    byteOffsets arch (optimizeShort arch desc).out = byteOffsets arch desc ↔
      PassFits arch desc := by
  obtain ⟨w, written, kept⟩ := optimizeShort_spec shaped small
  have places : Function.Injective (List.map (Prod.snd : Byte → Offset)) :=
    map_injective_iff.mpr fun one two same => Prod.ext rfl same
  rw [byteOffsets, byteOffsets, written.denotes.expand_eq, shaped.denotes.expand_eq,
    places.eq_iff, kept]

/-- Committing a type writes its optimized description and flags only. -/
theorem commit_cases (t : Datatype) :
    (t.commit arch).desc = t.desc ∧ (t.commit arch).size = t.size ∧
      (t.commit arch).nbElems = t.nbElems ∧ (t.commit arch).predefined? = t.predefined? ∧
      (t.commit arch).flags.committed = true := by
  unfold Datatype.commit
  split
  · rename_i committed
    exact ⟨rfl, rfl, rfl, rfl, committed⟩
  · split <;> exact ⟨rfl, rfl, rfl, rfl, rfl⟩

/-- The committed type as the pass leaves it. -/
theorem commit_optDesc {t : Datatype} (fresh : t.flags.committed = false) (filled : t.desc ≠ []) :
    (t.commit arch).optDesc = (optimizeShort arch t.desc).out := by
  simp [Datatype.commit, fresh, filled]

end Commit

/-- Committing a type keeps the bytes of its description exactly when every turn of the pass
fits. -/
theorem commit_keeps_bytes {arch : Arch} {t : Datatype} (added : Added arch t)
    (fresh : t.flags.committed = false) :
    byteOffsets arch (t.commit arch).optDesc = byteOffsets arch t.desc ↔ PassFits arch t.desc := by
  obtain ⟨m, good⟩ := added.wellAdded
  by_cases empty : t.desc = []
  · -- Nothing to read, nothing to write.
    have idle : ∀ i, (Pass.step arch)^[i] (Pass.start []) = Pass.start [] := by
      intro i
      exact Function.iterate_fixed (by simp [Pass.step, Pass.start, Pass.flush]) i
    have fits : PassFits arch t.desc := by
      intro i
      rw [empty, idle]
      exact ⟨trivial, trivial⟩
    have none : (t.commit arch).optDesc = [] := by simp [Datatype.commit, fresh, empty]
    rw [none, empty]
    exact iff_of_true rfl (empty ▸ fits)
  · rw [commit_optDesc fresh empty]
    exact optimizeShort_keeps_iff good.shaped (good.size ▸ good.size_lt)

/-- Three numbers with a gap of their own size between them. -/
def spacedInts : Datatype :=
  ((Datatype.construct.add (.ofBasic lp64 .int4) 1 0 (-1)).add (.ofBasic lp64 .int4) 1 8 (-1)).add
    (.ofBasic lp64 .int4) 1 16 (-1)

theorem spacedInts_added : Added lp64 spacedInts := by
  have int4 : Added lp64 (.ofBasic lp64 .int4) := .basic .int4 (by decide)
  refine .added 1 16 (-1) (.added 1 8 (-1) (.added 1 0 (-1) .constructed int4 rfl ?_ ?_ ?_)
    int4 ?_ ?_ ?_ ?_) int4 ?_ ?_ ?_ ?_ <;> decide +kernel

/-- The three numbers become one element of three blocks, and nothing is lost. -/
theorem spacedInts_fit :
    (spacedInts.commit lp64).optDesc = [.elem ⟨.int4, 3, 1, 8, 0⟩] ∧
      PassFits lp64 spacedInts.desc :=
  ⟨by decide +kernel,
    (commit_keeps_bytes spacedInts_added (by decide +kernel)).mp (by decide +kernel)⟩

/-- Every second byte, as often as an `int` can count. -/
def byteGrid : Datatype :=
  Datatype.construct.add (.ofBasic lp64 .int1) (2 ^ 31 - 1) 0 2

/-- Three such types one behind the other, on one grid. -/
def threeGrids : Datatype :=
  ((Datatype.construct.add byteGrid 1 0 (-1)).add byteGrid 1 (2 ^ 32 - 2) (-1)).add
    byteGrid 1 (2 ^ 33 - 4) (-1)

theorem threeGrids_added : Added lp64 threeGrids := by
  have part : Added lp64 byteGrid := by
    refine .added _ 0 2 .constructed (.basic .int1 (by decide)) rfl ?_ ?_ ?_ <;> decide +kernel
  refine .added 1 _ (-1) (.added 1 _ (-1) (.added 1 0 (-1) .constructed part rfl ?_ ?_ ?_)
    part ?_ ?_ ?_ ?_) part ?_ ?_ ?_ ?_ <;> decide +kernel

/-- The three counts together do not fit the count of one element: most bytes are lost. -/
theorem threeGrids_lose_bytes :
    Added lp64 threeGrids ∧ threeGrids.flags.committed = false ∧
      byteOffsets lp64 (threeGrids.commit lp64).optDesc ≠ byteOffsets lp64 threeGrids.desc := by
  have before : threeGrids.desc = [.elem ⟨.int1, 2 ^ 31 - 1, 1, 2, 0⟩,
      .elem ⟨.int1, 2 ^ 31 - 1, 1, 2, 2 ^ 32 - 2⟩,
      .elem ⟨.int1, 2 ^ 31 - 1, 1, 2, 2 ^ 33 - 4⟩] := by decide +kernel
  have after : (threeGrids.commit lp64).optDesc = [.elem ⟨.int1, 2 ^ 31 - 3, 1, 2, 0⟩] := by
    decide +kernel
  refine ⟨threeGrids_added, by decide +kernel, fun same => ?_⟩
  -- The description has three times as many bytes as an `int` can count.
  have lengths := congrArg List.length same
  rw [byteOffsets, byteOffsets, before, after, (Denotes.single lp64 _).expand_eq,
    ((Denotes.single lp64 _).elem _ |>.elem _).expand_eq] at lengths
  simp [length_bytes, Elem.block, lp64, lp64Size] at lengths

end EduMpi.Ddt
