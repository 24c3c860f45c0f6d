import EduMpi.Ddt.Bytes

/-! The descriptions that `opal_datatype_add` builds: their loops know their own records. -/

namespace EduMpi.Ddt

open Ints Strided

/-- An element that stands for at least one byte and whose count fits its field. -/
structure Elem.Sound (e : Elem) : Prop where
  count_pos : 0 < e.count
  count_lt : e.count < 2 ^ 32
  blocklen_pos : 0 < e.blocklen

/-- A loop whose start and end say what is between them. -/
structure LoopSound (arch : Arch) (l : Loop) (body : List Entry) (b : List Slot) (f : EndLoop) :
    Prop where
  filled : body ≠ []
  loops_pos : 0 < l.loops
  loops_lt : l.loops < 2 ^ 32
  items : l.items = body.length + 1
  size : f.size = (bytesOf arch b).length
  first : f.firstElemDisp = firstDisp body

/-- A well-nested description with sound records, and its type map. -/
inductive Shaped (arch : Arch) : List Entry → List Slot → Prop where
  | nil : Shaped arch [] []
  | elem {rest m} (e : Elem) : e.Sound → Shaped arch rest m →
      Shaped arch (.elem e :: rest) (e.slots arch ++ m)
  | loop {body rest b m} (l : Loop) (f : EndLoop) : LoopSound arch l body b f →
      Shaped arch body b → Shaped arch rest m →
      Shaped arch (.loop l :: body ++ .endLoop f :: rest)
        (copies l.loops (l.extent : Offset) b ++ m)

section Shaped

variable {arch : Arch} {desc others : List Entry} {m l : List Slot}

theorem Shaped.denotes (shaped : Shaped arch desc m) : Denotes arch desc m := by
  induction shaped with
  | nil => exact .nil
  | elem e _ _ ih => exact ih.elem e
  | loop l f _ _ _ body rest => exact body.loop l f rest

theorem Shaped.append (front : Shaped arch desc m) (back : Shaped arch others l) :
    Shaped arch (desc ++ others) (m ++ l) := by
  induction front with
  | nil => exact back
  | elem e sound _ ih => simpa using ih.elem e sound
  | loop loop f sound body _ _ ih => simpa using body.loop loop f sound ih

theorem Shaped.single {e : Elem} (sound : e.Sound) : Shaped arch [.elem e] (e.slots arch) := by
  simpa using (@Shaped.nil arch).elem e sound

/-- The first element of a moved description is moved. -/
theorem Shaped.firstDisp_move (shaped : Shaped arch desc m) (filled : desc ≠ []) (disp : Int) :
    firstDisp (desc.map (Entry.move disp)) = int64 (firstDisp desc + disp) := by
  -- A description starts with an element or with a loop that has one inside.
  have general : ∀ tail : List Entry,
      firstDisp ((desc ++ tail).map (Entry.move disp))
        = int64 (firstDisp (desc ++ tail) + disp) := by
    induction shaped with
    | nil => exact absurd rfl filled
    | elem e _ _ _ => intro tail; rfl
    | @loop _ after _ _ l f sound _ _ body _ =>
      intro tail
      simpa [firstDisp, Entry.move] using body sound.filled (.endLoop f :: (after ++ tail))
  simpa using general []

theorem Shaped.move (shaped : Shaped arch desc m) (disp : Int) :
    Shaped arch (desc.map (Entry.move disp)) (shift (disp : Offset) m) := by
  induction shaped with
  | nil => exact .nil
  | elem e sound _ ih =>
    rw [shift_append, ← Elem.slots_move]
    exact ih.elem _ { sound with }
  | @loop content _ _ _ l f sound inner _ body rest =>
    -- The end of the loop is moved with the first element it points at.
    have moved : LoopSound arch l (content.map (Entry.move disp)) (shift (disp : Offset) _)
        { f with firstElemDisp := int64 (f.firstElemDisp + disp) } :=
      { filled := by simpa using sound.filled
        loops_pos := sound.loops_pos
        loops_lt := sound.loops_lt
        items := by simpa using sound.items
        size := by simpa using sound.size
        first := by rw [inner.firstDisp_move sound.filled, ← sound.first] }
    simpa [Entry.move] using body.loop l _ moved rest

/-- A description without elements has no record. -/
theorem Shaped.eq_nil (shaped : Shaped arch desc m) (empty : m = []) : desc = [] := by
  induction shaped with
  | nil => rfl
  | elem e sound _ _ =>
    -- A sound element stands for at least one block.
    have lengths := congrArg List.length empty
    have := Nat.mul_pos sound.count_pos sound.blocklen_pos
    simp only [List.length_append, Elem.slots, length_shift, length_copies, List.length_singleton,
      List.length_nil, mul_one] at lengths
    omega
  | loop l f sound _ _ body _ =>
    have lengths := congrArg List.length empty
    simp only [List.length_append, length_copies, List.length_nil, Nat.add_eq_zero_iff,
      Nat.mul_eq_zero, List.length_eq_zero_iff] at lengths
    exact absurd (body (lengths.1.resolve_left sound.loops_pos.ne')) sound.filled

end Shaped

/-- The counters of the appended records hold all the copies: none of them wraps around. -/
def Datatype.Counted (arch : Arch) (old : Datatype) (count : Nat) (extent : Int) : Prop :=
  let recorded := old.recording arch (old.typeMap arch) count (old.repeatExtent extent)
  recorded.total = count * recorded.per

instance (arch : Arch) (old : Datatype) (count : Nat) (extent : Int) :
    Decidable (old.Counted arch count extent) :=
  inferInstanceAs (Decidable (_ = _))

/-- The datatypes that adds build, as long as sizes and counters fit their fields. -/
inductive Added (arch : Arch) : Datatype → Prop where
  | constructed : Added arch .construct
  | basic (b : Basic) : arch.size b < 2 ^ 64 → Added arch (.ofBasic arch b)
  | lbMarker : Added arch (.marker .lb)
  | ubMarker : Added arch (.marker .ub)
  | null : Added arch .null
  | cloned {t} : Added arch t → Added arch t.clone
  | resized {t} (lb extent : Int) : Added arch t → Added arch (t.resize lb extent)
  | added {base old} (count : Nat) (disp extent : Int) : Added arch base → Added arch old →
      base.flags.predefined = false → old.Counted arch count extent →
      base.size + count * old.size < 2 ^ 64 →
      (base.add old count disp extent).desc.length < 2 ^ 31 →
      Added arch (base.add old count disp extent)

/-- What holds of every type that adds build. -/
structure WellAdded (arch : Arch) (t : Datatype) (m : List Slot) : Prop where
  shaped : Shaped arch t.desc m
  size : t.size = (bytesOf arch m).length
  size_lt : t.size < 2 ^ 64
  short : t.desc.length < 2 ^ 31
  basic : ∀ b, t.predefined? = some b → m = [(b, 0)] ∧ t.size = arch.size b

namespace Datatype

variable {arch : Arch} {base old : Datatype} {m : List Slot} {count : Nat} {disp extent : Int}
  {t : Datatype}

theorem buildLoop_shaped (good : WellAdded arch old m) (filled : old.desc ≠ []) (some : 0 < count)
    (counted : (recordWhole m count extent).total = count * (recordWhole m count extent).per) :
    ∃ w, Shaped arch (old.buildLoop count disp extent) w := by
  have moved := good.shaped.move disp
  unfold buildLoop
  split
  · exact ⟨_, moved⟩
  -- The loop is as long as the description around which it is put.
  rename_i several
  have fits : count < 2 ^ 32 := by
    simp only [recordWhole, if_neg several, mul_one] at counted
    exact counted ▸ Nat.mod_lt _ (by decide)
  have short := good.short
  have items : (old.desc.length + 1) % 2 ^ 32 = old.desc.length + 1 :=
    Nat.mod_eq_of_lt (by omega)
  have sound : LoopSound arch
      ⟨old.flags.contiguous, count % 2 ^ 32, (old.desc.length + 1) % 2 ^ 32, extent⟩
      (old.desc.map (Entry.move disp)) (shift (disp : Offset) m)
      ⟨(old.desc.length + 1) % 2 ^ 32, old.size, firstDisp (old.desc.map (Entry.move disp))⟩ :=
    { filled := by simpa using filled
      loops_pos := by rw [Nat.mod_eq_of_lt fits]; exact some
      loops_lt := Nat.mod_lt _ (by decide)
      items := by simpa using items
      size := by simpa using good.size
      first := rfl }
  exact ⟨_, by simpa using moved.loop _ _ sound .nil⟩

theorem describeBasic_shaped {b : Basic} (some : 0 < count)
    (counted : (if extent ≠ int64 old.size then count % 2 ^ 32 else count) = count) :
    ∃ w, Shaped arch (old.describeBasic b count disp extent) w := by
  unfold describeBasic
  split at counted
  · rename_i apart
    rw [if_pos apart]
    exact ⟨_, .single ⟨by dsimp only; omega, by dsimp only; omega, Nat.one_pos⟩⟩
  · rename_i adjacent
    rw [if_neg adjacent]
    exact ⟨_, .single ⟨Nat.one_pos, Nat.one_lt_two_pow (by decide), some⟩⟩

theorem describeElem_shaped {e : Elem} (good : WellAdded arch old m) (desc : old.desc = [.elem e])
    (some : 0 < count)
    (counted : (recordElem arch e m count extent).total
      = count * (recordElem arch e m count extent).per) :
    ∃ w, Shaped arch (old.describeElem e count disp extent) w := by
  have filled : old.desc ≠ [] := by simp [desc]
  obtain ⟨sound⟩ : e.Sound := by
    have shaped := good.shaped
    rw [desc] at shaped
    cases shaped with
    | elem e sound _ => exact sound
  rename_i count_lt blocklen_pos
  unfold recordElem at counted
  unfold describeElem
  split at counted
  · rename_i one
    rw [if_pos one]
    exact ⟨_, .single ⟨sound, count_lt, blocklen_pos⟩⟩
  rename_i several
  rw [if_neg several]
  split at counted
  · rename_i block
    rw [if_pos block]
    split at counted
    · -- One block swallows the others.
      rename_i adjacent
      rw [if_pos adjacent]
      have positive : 0 < e.blocklen * count % 2 ^ 64 :=
        (Nat.mul_pos some blocklen_pos).trans_eq counted.symm
      exact ⟨_, .single ⟨sound, count_lt, positive⟩⟩
    · rename_i apart
      rw [if_neg apart]
      simp only [recordWhole, if_neg several, mul_one] at counted
      have positive : 0 < count % 2 ^ 32 := counted.symm ▸ some
      exact ⟨_, .single ⟨positive, Nat.mod_lt _ (by decide), blocklen_pos⟩⟩
  rename_i blocks
  rw [if_neg blocks]
  split at counted
  · rename_i aligned
    rw [if_pos aligned]
    split at counted
    · rename_i wraps
      rw [if_pos wraps]
      exact buildLoop_shaped good filled some counted
    -- The copies only raise the count.
    rename_i fits
    rw [if_neg fits]
    have positive : 0 < e.count * count % 2 ^ 32 :=
      (Nat.mul_pos some sound).trans_eq counted.symm
    exact ⟨_, .single ⟨positive, Nat.mod_lt _ (by decide), blocklen_pos⟩⟩
  · rename_i apart
    rw [if_neg apart]
    exact buildLoop_shaped good filled some counted

/-- What the adds append has sound records when its counters do not wrap around. -/
theorem describe_shaped (disp : Int) (good : WellAdded arch old m) (filled : old.desc ≠ [])
    (some : 0 < count)
    (counted : (old.recording arch m count extent).total
      = count * (old.recording arch m count extent).per) :
    ∃ w, Shaped arch (old.describe count disp extent) w := by
  cases predefined : old.predefined? with
  | some b =>
    simp only [recording, describe, predefined, mul_one] at counted ⊢
    exact describeBasic_shaped some counted
  | none =>
    by_cases single : ∃ e, old.desc = [.elem e]
    · obtain ⟨e, desc⟩ := single
      simp only [recording, describe, predefined, desc] at counted ⊢
      exact describeElem_shaped good desc some counted
    · -- Any other description is repeated by a loop around it.
      rw [recording_of_many predefined single] at counted
      rw [describe_of_many predefined single]
      exact buildLoop_shaped good filled some counted

/-- What one add does to size, elements and records of a type, early returns included. -/
theorem add_cases (base old : Datatype) (count : Nat) (disp extent : Int) :
    (base.add old count disp extent).desc = base.desc ∧
        (base.add old count disp extent).size = base.size ∧
        (base.add old count disp extent).nbElems = base.nbElems ∨
      0 < count ∧ old.size ≠ 0 ∧
        (base.add old count disp extent).desc
          = base.desc ++ old.describe count disp (old.repeatExtent extent) ∧
        (base.add old count disp extent).size = (base.size + count * old.size) % 2 ^ 64 ∧
        (base.add old count disp extent).nbElems
          = (base.nbElems + count * old.nbElems) % 2 ^ 64 := by
  unfold add
  split
  · exact .inl ⟨rfl, rfl, rfl⟩
  rename_i some
  split
  · exact .inl ⟨rfl, rfl, rfl⟩
  · exact .inl ⟨rfl, rfl, rfl⟩
  split
  · exact .inl ⟨rfl, rfl, rfl⟩
  split
  · exact .inl ⟨rfl, rfl, rfl⟩
  · rename_i size
    exact .inr ⟨Nat.pos_of_ne_zero some, size, rfl, rfl, rfl⟩

theorem add_predefined :
    (base.add old count disp extent).flags.predefined = base.flags.predefined := by
  unfold add
  split
  · rfl
  split
  · rfl
  · rfl
  split
  · rfl
  split <;> rfl

theorem add_predefined? (user : base.flags.predefined = false) :
    (base.add old count disp extent).predefined? = none := by
  simp [predefined?, add_predefined, user]

/-- What an add appends stands for the copies that were added. -/
theorem describe_copies (disp : Int) (part : WellAdded arch old m) (filled : old.size ≠ 0)
    (some : 0 < count) (counted : old.Counted arch count extent) :
    ∃ w, Shaped arch (old.describe count disp (old.repeatExtent extent)) w ∧
      w.length = count * m.length ∧ (bytesOf arch w).length = count * old.size := by
  have map : old.typeMap arch = m := part.shaped.denotes.expand_eq
  unfold Counted at counted
  rw [map] at counted
  have nonempty : old.desc ≠ [] := by
    intro empty
    have nothing : m = [] := (empty ▸ part.shaped.denotes).unique .nil
    exact filled (by simp [part.size, nothing])
  obtain ⟨w, shaped⟩ := describe_shaped disp part nonempty some counted
  obtain ⟨unit, stands⟩ := describe_stands ⟨part.shaped.denotes, part.basic⟩ count disp
    (old.repeatExtent extent)
  have w_eq := shaped.denotes.unique stands
  -- Both maps are copies of one unit.
  have elements := congrArg List.length unit
  have bytes := congrArg (fun map => (bytesOf arch map).length) unit
  simp only [length_copies] at elements
  simp only [bytesOf_copies, length_copies] at bytes
  refine ⟨w, shaped, ?_, ?_⟩
  · rw [w_eq, length_shift, length_copies, counted, elements, Nat.mul_assoc]
  · rw [part.size, bytes, w_eq, bytesOf_shift, bytesOf_copies, length_shift, length_copies,
      counted, Nat.mul_assoc]

/-- An add whose counters hold keeps the description sound and the size right. -/
theorem wellAdded_add {made : List Slot} (good : WellAdded arch base made)
    (part : WellAdded arch old m) (user : base.flags.predefined = false)
    (counted : old.Counted arch count extent) (size : base.size + count * old.size < 2 ^ 64)
    (short : (base.add old count disp extent).desc.length < 2 ^ 31) :
    ∃ grown, WellAdded arch (base.add old count disp extent) grown := by
  have basic : ∀ (grown : List Slot) (b : Basic),
      (base.add old count disp extent).predefined? = some b →
        grown = [(b, 0)] ∧ (base.add old count disp extent).size = arch.size b := by
    intro grown b predefined
    simp [add_predefined? user] at predefined
  rcases add_cases base old count disp extent with
    ⟨desc, same, -⟩ | ⟨some, filled, desc, grows, -⟩
  · exact ⟨made, desc ▸ good.shaped, same ▸ good.size, same ▸ good.size_lt, short, basic made⟩
  · -- The appended records stand for as many bytes as the size grows by.
    obtain ⟨w, shaped, -, bytes⟩ := describe_copies disp part filled some counted
    rw [Nat.mod_eq_of_lt size] at grows
    refine ⟨made ++ w, desc ▸ good.shaped.append shaped, ?_, grows ▸ size, short, basic _⟩
    rw [grows, bytesOf_append, List.length_append, bytes, good.size]

end Datatype

/-- A copy is no longer predefined, and nothing else of it counts here. -/
theorem WellAdded.clone {arch : Arch} {m : List Slot} (good : WellAdded arch t m) :
    WellAdded arch t.clone m := by
  refine { good with basic := fun b predefined => ?_ }
  simp [Datatype.predefined?, Datatype.clone] at predefined

theorem WellAdded.resize {arch : Arch} {m : List Slot} (lb extent : Int)
    (good : WellAdded arch t m) : WellAdded arch (t.resize lb extent) m :=
  { good with }

/-- Every type that adds build has a sound description of as many bytes as its size. -/
theorem Added.wellAdded {arch : Arch} (added : Added arch t) : ∃ m, WellAdded arch t m := by
  have none : ∀ (t : Datatype) (m : List Slot), t.flags.data = false →
      ∀ b, t.predefined? = some b → m = [(b, 0)] ∧ t.size = arch.size b := by
    intro t m data b predefined
    simp [Datatype.predefined?, data] at predefined
  induction added with
  | constructed | lbMarker | ubMarker | null =>
    exact ⟨[], .nil, rfl, by decide, by decide, none _ _ rfl⟩
  | basic b fits =>
    refine ⟨[(b, 0)], ?_, ?_, fits, by simp [Datatype.ofBasic], ?_⟩
    · have sound : Elem.Sound ⟨b, 1, 1, arch.size b, 0⟩ :=
        ⟨Nat.one_pos, Nat.one_lt_two_pow (by decide), Nat.one_pos⟩
      simpa [Elem.slots, Datatype.ofBasic] using @Shaped.single arch _ sound
    · simp [Datatype.ofBasic, bytesOf_cons, slotBytes]
    · intro other predefined
      simp [Datatype.predefined?, Datatype.ofBasic] at predefined
      simp [Datatype.ofBasic, predefined]
  | cloned _ ih => exact ih.imp fun m good => good.clone
  | resized lb extent _ ih => exact ih.imp fun m good => good.resize lb extent
  | added count disp extent _ _ user counted size short made part =>
    obtain ⟨made, good⟩ := made
    obtain ⟨m, part⟩ := part
    exact Datatype.wellAdded_add good part user counted size short

end EduMpi.Ddt
