import EduMpi.Ddt.Constructors

/-! What one `opal_datatype_add` appends to a type map, and when it is what was asked for. -/

namespace EduMpi.Ddt

open Ints Strided

/-- Addresses do not see the wrap-around of a 64-bit result. -/
@[simp]
theorem cast_int64 (x : Int) : ((int64 x : Int) : Offset) = x := by
  have reduced : int64 x = x - 2 ^ 64 * ((x + 2 ^ 63) / 2 ^ 64) := by
    unfold int64
    omega
  have zero : ((2 ^ 64 : Int) : Offset) = 0 := by decide
  rw [reduced, Int.cast_sub, Int.cast_mul, zero, zero_mul, sub_zero]

/-- `simp` writes a zero displacement as a word. -/
@[simp]
theorem shift_zero_word {A : Type*} (m : List (A × Offset)) : shift (0#64 : Offset) m = m :=
  shift_zero

@[simp]
theorem Datatype.construct_desc : Datatype.construct.desc = [] := rfl

section Meaning

variable {arch : Arch} {desc : List Entry} {m : List Slot}

theorem Elem.slots_move (e : Elem) (disp : Int) :
    ({ e with disp := int64 (e.disp + disp) } : Elem).slots arch
      = shift (disp : Offset) (e.slots arch) := by
  simp [Elem.slots]

/-- Moving every record moves the type map. -/
theorem Denotes.move (denotes : Denotes arch desc m) (disp : Int) :
    Denotes arch (desc.map (Entry.move disp)) (shift (disp : Offset) m) := by
  induction denotes with
  | nil => exact .nil
  | elem e _ ih =>
    rw [shift_append, ← Elem.slots_move]
    exact ih.elem _
  | loop l f _ _ body rest =>
    simpa [Entry.move] using
      body.loop l { f with firstElemDisp := int64 (f.firstElemDisp + disp) } rest

end Meaning

/-- A datatype whose description stands for the given type map. -/
structure Describes (arch : Arch) (t : Datatype) (m : List Slot) : Prop where
  denotes : Denotes arch t.desc m
  basic : ∀ b, t.predefined? = some b → m = [(b, 0)] ∧ t.size = arch.size b

/-- A description whose records all stand for something, as the calls that fit build it. -/
structure WellFormed (arch : Arch) (t : Datatype) (m : List Slot) : Prop
    extends Describes arch t m where
  filled : t.desc ≠ [] → m ≠ []
  empty : t.desc = [] → t.size = 0
  marker : t.id = .lb ∨ t.id = .ub → t.desc = []

namespace Datatype

/-- How appended records count repetitions: `total` units, where one copy of the type has `per`. -/
structure Recording where
  unit : List Slot
  per : Nat
  total : Nat
  stride : Offset

/-- Whole copies of the type, counted in the 32 bits of a record. -/
def recordWhole (m : List Slot) (count : Nat) (extent : Int) : Recording :=
  ⟨m, 1, if count = 1 then 1 else count % 2 ^ 32, extent⟩

/-- What `describeElem` records. -/
def recordElem (arch : Arch) (e : Elem) (m : List Slot) (count : Nat) (extent : Int) :
    Recording :=
  if count = 1 then recordWhole m count extent
  else if e.count = 1 then
    if e.extent = extent then
      ⟨[(e.type, e.disp)], e.blocklen, e.blocklen * count % 2 ^ 64, arch.size e.type⟩
    else recordWhole m count extent
  else if extent = int64 (e.count * e.extent) then
    if e.count * count % 2 ^ 32 < e.count then recordWhole m count extent
    else
      ⟨shift e.disp (copies e.blocklen (arch.size e.type : Offset) [(e.type, 0)]), e.count,
        e.count * count % 2 ^ 32, e.extent⟩
  else recordWhole m count extent

/-- What `describe` records for a type with this type map. -/
def recording (arch : Arch) (old : Datatype) (m : List Slot) (count : Nat) (extent : Int) :
    Recording :=
  match old.predefined? with
  | some _ => ⟨m, 1, if extent ≠ int64 old.size then count % 2 ^ 32 else count, extent⟩
  | none =>
    match old.desc with
    | [.elem e] => recordElem arch e m count extent
    | _ => recordWhole m count extent

/-- The records stand for the recorded copies, and the type itself is some of them. -/
def Recording.Stands (arch : Arch) (m : List Slot) (disp : Int) (records : List Entry)
    (r : Recording) : Prop :=
  m = copies r.per r.stride r.unit ∧
    Denotes arch records (shift (disp : Offset) (copies r.total r.stride r.unit))

variable {arch : Arch} {old : Datatype} {m : List Slot} {count : Nat} {disp extent : Int}

theorem buildLoop_stands (denotes : Denotes arch old.desc m) :
    (recordWhole m count extent).Stands arch m disp (old.buildLoop count disp extent) := by
  refine ⟨copies_one.symm, ?_⟩
  unfold buildLoop recordWhole
  split
  · simpa using denotes.move disp
  · simpa using (denotes.move disp).loop _ _ .nil

theorem describeBasic_stands {b : Basic} (map : m = [(b, 0)]) (size : old.size = arch.size b) :
    Recording.Stands arch m disp (old.describeBasic b count disp extent)
      ⟨m, 1, if extent ≠ int64 old.size then count % 2 ^ 32 else count, extent⟩ := by
  refine ⟨copies_one.symm, ?_⟩
  unfold describeBasic
  split
  · have single := Denotes.single arch ⟨b, count % 2 ^ 32, 1, extent, disp⟩
    simpa [Elem.slots, map] using single
  -- An extent of the size of the type makes the copies one block.
  rename_i adjacent
  have stride : (extent : Offset) = (arch.size b : Offset) := by
    rw [not_not.mp adjacent, cast_int64, size, Int.cast_natCast]
  have single := Denotes.single arch ⟨b, 1, count, int64 (count * extent), disp⟩
  simpa [Elem.slots, map, stride] using single

theorem describeElem_stands {e : Elem} (desc : old.desc = [.elem e])
    (denotes : Denotes arch old.desc m) :
    (recordElem arch e m count extent).Stands arch m disp
      (old.describeElem e count disp extent) := by
  have map : m = e.slots arch := denotes.unique (desc ▸ Denotes.single arch e)
  unfold recordElem describeElem
  dsimp only
  split
  · -- One copy is the element itself, moved.
    rename_i one
    subst one
    refine ⟨copies_one.symm, ?_⟩
    have single := Denotes.single arch { e with disp := int64 (e.disp + disp) }
    rw [Elem.slots_move, ← map] at single
    simpa [recordWhole] using single
  split
  · rename_i several one
    split
    · -- One block swallows the others.
      refine ⟨?_, ?_⟩
      · simp [map, Elem.slots, one]
      · have single := Denotes.single arch
          { e with
            disp := int64 (e.disp + disp)
            blocklen := e.blocklen * count % 2 ^ 64
            extent := int64 (e.extent * count) }
        simpa [Elem.slots, one] using single
    · -- The block becomes the unit of a new count.
      refine ⟨copies_one.symm, ?_⟩
      have single := Denotes.single arch
        { e with disp := int64 (e.disp + disp), count := count % 2 ^ 32, extent }
      simpa [Elem.slots, recordWhole, several, map, one] using single
  split
  · split
    · exact buildLoop_stands denotes
    · -- The copies only raise the count.
      refine ⟨?_, ?_⟩
      · simp [map, Elem.slots]
      · have single := Denotes.single arch
          { e with disp := int64 (e.disp + disp), count := e.count * count % 2 ^ 32 }
        simpa [Elem.slots] using single
  · exact buildLoop_stands denotes

/-- A user type that is not one element is repeated by a loop around its description. -/
theorem describe_of_many (user : old.predefined? = none) (many : ¬∃ e, old.desc = [.elem e])
    (count : Nat) (disp extent : Int) :
    old.describe count disp extent = old.buildLoop count disp extent := by
  simp only [describe, user]
  split
  · exact absurd ⟨_, ‹_›⟩ many
  · rfl

theorem recording_of_many (user : old.predefined? = none) (many : ¬∃ e, old.desc = [.elem e])
    (m : List Slot) (count : Nat) (extent : Int) :
    old.recording arch m count extent = recordWhole m count extent := by
  simp only [recording, user]
  split
  · exact absurd ⟨_, ‹_›⟩ many
  · rfl

/-- A repetition is recorded as copies of a unit that the type itself is made of. -/
theorem describe_stands (good : Describes arch old m) (count : Nat) (disp extent : Int) :
    (old.recording arch m count extent).Stands arch m disp
      (old.describe count disp extent) := by
  cases predefined : old.predefined? with
  | some b =>
    obtain ⟨map, size⟩ := good.basic b predefined
    simp only [recording, describe, predefined]
    exact describeBasic_stands map size
  | none =>
    by_cases single : ∃ e, old.desc = [.elem e]
    · obtain ⟨e, desc⟩ := single
      simp only [recording, describe, predefined, desc]
      exact describeElem_stands desc good.denotes
    · -- Any other description is repeated by a loop around it.
      rw [describe_of_many predefined single, recording_of_many predefined single]
      exact buildLoop_stands good.denotes

/-- The records `opal_datatype_add` appends, none when it returns early. -/
def piece (old : Datatype) (count : Nat) (disp extent : Int) : List Entry :=
  if count = 0 ∨ old.id = .lb ∨ old.id = .ub ∨ old.tooLong count = true ∨ old.size = 0 then []
  else old.describe count disp (old.repeatExtent extent)

theorem add_desc (base : Datatype) :
    (base.add old count disp extent).desc = base.desc ++ old.piece count disp extent := by
  unfold add piece
  split
  · simp [*]
  · cases id : old.id <;> simp only [addLb, addUb, addBounds, addData,
      true_or, or_true, if_true, List.append_nil] <;> split <;> (try split) <;> simp_all

/-- Whether whole copies, counted in 32 bits at extent `e`, are the copies asked for. -/
def RepeatsWhole (passed asked : Nat) (e extent : Int) : Prop :=
  (if passed = 1 then 1 else passed % 2 ^ 32) = asked ∧
    (2 ≤ asked → (e : Offset) = (extent : Offset))

/-- Whether the branch that records the copies of an element records the copies asked for. -/
def RepeatsElem (arch : Arch) (el : Elem) (passed asked : Nat) (e extent : Int) : Prop :=
  if passed = 1 then RepeatsWhole passed asked e extent
  else if el.count = 1 then
    if el.extent = e then
      -- The merged block has to fit, and the blocks have to be adjacent.
      el.blocklen * passed % 2 ^ 64 = asked * el.blocklen ∧
        (2 ≤ asked → (el.blocklen : Offset) * (arch.size el.type : Offset) = (extent : Offset))
    else RepeatsWhole passed asked e extent
  else if e = int64 (el.count * el.extent) then
    if el.count * passed % 2 ^ 32 < el.count then RepeatsWhole passed asked e extent
    else
      el.count * passed % 2 ^ 32 = asked * el.count ∧
        (2 ≤ asked → (e : Offset) = (extent : Offset))
  else RepeatsWhole passed asked e extent

/-- Whether `passed` copies at this extent are recorded as the `asked` copies. -/
def Repeats (arch : Arch) (old : Datatype) (passed asked : Nat) (extent : Int) : Prop :=
  let e := old.repeatExtent extent
  match old.predefined? with
  | some _ =>
    (if e ≠ int64 old.size then passed % 2 ^ 32 else passed) = asked ∧
      (2 ≤ asked → (e : Offset) = (extent : Offset))
  | none =>
    match old.desc with
    | [.elem el] => RepeatsElem arch el passed asked e extent
    | _ => RepeatsWhole passed asked e extent

/-- When an added type ends up in the description as the copies asked for. -/
def Fits (arch : Arch) (old : Datatype) (passed asked : Nat) (extent : Int) : Prop :=
  old.desc = [] ∨
    old.size ≠ 0 ∧ passed ≠ 0 ∧ old.tooLong passed = false ∧ old.Repeats arch passed asked extent

variable {passed asked : Nat} {e : Int} {written : List Slot}

theorem repeatsWhole_iff :
    RepeatsWhole passed asked e extent ↔
      (recordWhole m passed e).total = asked * (recordWhole m passed e).per ∧
        (2 ≤ asked → ((recordWhole m passed e).per : Offset) * (recordWhole m passed e).stride
          = (extent : Offset)) := by
  simp [RepeatsWhole, recordWhole]

/-- The condition is that number and stride of the recorded units are the ones asked for. -/
theorem repeats_iff :
    old.Repeats arch passed asked extent ↔
      (old.recording arch m passed (old.repeatExtent extent)).total
          = asked * (old.recording arch m passed (old.repeatExtent extent)).per ∧
        (2 ≤ asked →
          ((old.recording arch m passed (old.repeatExtent extent)).per : Offset)
            * (old.recording arch m passed (old.repeatExtent extent)).stride
              = (extent : Offset)) := by
  unfold Repeats recording
  cases old.predefined? with
  | some b => simp
  | none =>
    dsimp only
    split
    · unfold RepeatsElem recordElem
      split
      · exact repeatsWhole_iff
      split
      · split
        · exact Iff.rfl
        · exact repeatsWhole_iff
      split
      · rename_i whole
        split
        · exact repeatsWhole_iff
        · simp only [whole, cast_int64, Int.cast_mul, Int.cast_natCast]
      · exact repeatsWhole_iff
    · exact repeatsWhole_iff

/-- Appended records are well nested whether or not they are what was asked for. -/
theorem piece_denotes (good : Describes arch old m) (count : Nat) (disp extent : Int) :
    ∃ written, Denotes arch (old.piece count disp extent) written := by
  unfold piece
  split
  · exact ⟨[], .nil⟩
  · exact ⟨_, (describe_stands good _ _ _).2⟩

/-- The appended records stand for the copies asked for exactly when they fit. -/
theorem piece_iff (good : WellFormed arch old m)
    (denotes : Denotes arch (old.piece passed disp extent) written) (some : 0 < asked) :
    written = shift (disp : Offset) (copies asked (extent : Offset) m) ↔
      old.Fits arch passed asked extent := by
  by_cases empty : old.desc = []
  · -- An empty type adds nothing, and nothing was asked for.
    have map : m = [] := (empty ▸ good.denotes).unique .nil
    have none : old.piece passed disp extent = [] := by simp [piece, good.empty empty]
    have nothing : written = [] := (none ▸ denotes).unique .nil
    simp [Fits, empty, map, nothing]
  have nonempty : m ≠ [] := good.filled empty
  by_cases early : passed = 0 ∨ old.id = .lb ∨ old.id = .ub ∨ old.tooLong passed = true ∨
      old.size = 0
  · -- An early return leaves out copies that have something in them.
    have none : old.piece passed disp extent = [] := if_pos early
    have nothing : written = [] := (none ▸ denotes).unique .nil
    have asked_ne : copies asked (extent : Offset) m ≠ [] := by
      intro eq
      have := congrArg List.length eq
      simp only [length_copies, List.length_nil, Nat.mul_eq_zero, List.length_eq_zero_iff] at this
      exact this.elim some.ne' nonempty
    have notMarker : ¬(old.id = .lb ∨ old.id = .ub) := fun marker => empty (good.marker marker)
    refine iff_of_false ?_ ?_
    · rw [nothing, eq_comm, shift_eq_nil]
      exact asked_ne
    · rintro (desc | ⟨size, count, long, -⟩)
      · exact empty desc
      · rcases early with zero | lb | ub | tooLong | zero
        · exact count zero
        · exact notMarker (.inl lb)
        · exact notMarker (.inr ub)
        · rw [long] at tooLong
          exact Bool.noConfusion tooLong
        · exact size zero
  · -- The recorded units are regrouped into copies of the type.
    have described : old.piece passed disp extent
        = old.describe passed disp (old.repeatExtent extent) := if_neg early
    obtain ⟨map, stands⟩ := describe_stands good.toDescribes passed disp (old.repeatExtent extent)
    have written_eq := (described ▸ denotes).unique stands
    push Not at early
    have fits : old.Fits arch passed asked extent ↔ old.Repeats arch passed asked extent := by
      simp [Fits, empty, early.1, early.2.2.2.1, early.2.2.2.2]
    set r := old.recording arch m passed (old.repeatExtent extent) with r_def
    have unit : r.unit ≠ [] := fun none => nonempty (by rw [map, none, copies_nil])
    have per : 0 < r.per := Nat.pos_of_ne_zero fun zero => nonempty (by rw [map, zero, copies_zero])
    rw [written_eq, shift_inj, fits, repeats_iff (m := m)]
    nth_rewrite 1 [map]
    exact copies_regroup unit per

/-- No branch records more units than the copies have. -/
theorem recording_total_le (arch : Arch) (old : Datatype) (m : List Slot) (count : Nat)
    (extent : Int) :
    (old.recording arch m count extent).total
      ≤ count * (old.recording arch m count extent).per := by
  have whole : (recordWhole m count extent).total ≤ count * (recordWhole m count extent).per := by
    simp only [recordWhole, mul_one]
    split
    · omega
    · exact Nat.mod_le _ _
  unfold recording
  cases old.predefined? with
  | some b =>
    dsimp only
    split
    · simpa using Nat.mod_le count _
    · simp
  | none =>
    dsimp only
    split
    · unfold recordElem
      split
      · exact whole
      split
      · split
        · exact (Nat.mod_le _ _).trans (Nat.mul_comm _ _).le
        · exact whole
      split
      · split
        · exact whole
        · exact (Nat.mod_le _ _).trans (Nat.mul_comm _ _).le
      · exact whole
    · exact whole

/-- Appended records are never too long, and when they are not too short they start with a copy. -/
theorem piece_bound (good : Describes arch old m)
    (denotes : Denotes arch (old.piece count disp extent) written) :
    written.length ≤ count * m.length ∧
      (written.length = count * m.length → 0 < count →
        written.take m.length = shift (disp : Offset) m) := by
  unfold piece at denotes
  split at denotes
  · -- Nothing is long enough only for a type without a map.
    have nothing : written = [] := denotes.unique .nil
    subst nothing
    refine ⟨Nat.zero_le _, fun full some => ?_⟩
    have empty : m = [] := by
      simpa [some.ne'] using full.symm
    simp [empty]
  obtain ⟨map, stands⟩ := describe_stands good count disp (old.repeatExtent extent)
  have bound := recording_total_le arch old m count (old.repeatExtent extent)
  have written_eq := denotes.unique stands
  set r := old.recording arch m count (old.repeatExtent extent) with r_def
  clear_value r
  subst map
  have length : written.length = r.total * r.unit.length := by simp [written_eq]
  simp only [length_copies]
  refine ⟨?_, fun full some => ?_⟩
  · rw [length, ← Nat.mul_assoc]
    exact Nat.mul_le_mul_right _ bound
  · rcases List.eq_nil_or_concat r.unit with none | ⟨_, _, cons⟩
    · simp [none]
    · have positive : 0 < r.unit.length := by simp [cons]
      have total : r.total = count * r.per := by
        rw [length, ← Nat.mul_assoc] at full
        exact Nat.eq_of_mul_eq_mul_right positive full
      have enough : r.per ≤ r.total := total ▸ Nat.le_mul_of_pos_left _ some
      rw [written_eq, shift_copies, shift_copies, ← take_copies enough, length_shift]

end Datatype

end EduMpi.Ddt
