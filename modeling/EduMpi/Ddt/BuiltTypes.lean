import EduMpi.Ddt.ConstructorLaws

/-! Every type the constructors build, with the type map the MPI standard gives it. -/

namespace EduMpi.Ddt

open Ints Strided List Datatype

/-- Copies of a type map, copy `j` at the displacement `place j`. -/
def placed (n : Nat) (place : Nat → Int) (m : List Slot) : List Slot :=
  (List.range n).flatMap fun j => shift (place j : Offset) m

/-- A call of a constructor of the MPI layer; old types are given by handles. -/
inductive Call where
  | contiguous (count old : Nat)
  | vector (count bLength : Nat) (stride : Int) (old : Nat)
  | hvector (count bLength : Nat) (stride : Int) (old : Nat)
  | indexed (blocks : List Block) (old : Nat)
  | hindexed (blocks : List Block) (old : Nat)
  | indexedBlock (bLength : Nat) (displacements : List Int) (old : Nat)
  | hindexedBlock (bLength : Nat) (displacements : List Int) (old : Nat)
  | struct (fields : List Field)

namespace Call

/-- The type a call builds. -/
def build (types : Nat → Datatype) : Call → Datatype
  | .contiguous count old => createContiguous count (types old)
  | .vector count bLength stride old => createVector count bLength stride (types old)
  | .hvector count bLength stride old => createHvector count bLength stride (types old)
  | .indexed blocks old => createIndexed blocks (types old)
  | .hindexed blocks old => createHindexed blocks (types old)
  | .indexedBlock bLength displacements old =>
    createIndexedBlock bLength displacements (types old)
  | .hindexedBlock bLength displacements old =>
    createHindexedBlock bLength displacements (types old)
  | .struct fields => createStruct types fields

/-- The type map the MPI standard defines for a call. -/
def typeMap (extent : Nat → Int) (maps : Nat → List Slot) : Call → List Slot
  | .contiguous count old => placed count (fun j => j * extent old) (maps old)
  | .vector count bLength stride old =>
    (List.range count).flatMap fun i : Nat =>
      placed bLength (fun j => (i * stride + j) * extent old) (maps old)
  | .hvector count bLength stride old =>
    (List.range count).flatMap fun i : Nat =>
      placed bLength (fun j => i * stride + j * extent old) (maps old)
  | .indexed blocks old =>
    blocks.flatMap fun block =>
      placed block.length (fun j => (block.disp + j) * extent old) (maps old)
  | .hindexed blocks old =>
    blocks.flatMap fun block =>
      placed block.length (fun j => block.disp + j * extent old) (maps old)
  | .indexedBlock bLength displacements old =>
    displacements.flatMap fun disp =>
      placed bLength (fun j => (disp + j) * extent old) (maps old)
  | .hindexedBlock bLength displacements old =>
    displacements.flatMap fun disp =>
      placed bLength (fun j => disp + j * extent old) (maps old)
  | .struct fields =>
    fields.flatMap fun field =>
      placed field.length (fun j => field.disp + j * extent field.type) (maps field.type)

/-- Whether every run of blocks is recorded as the copies it stands for. -/
def RunsFit (arch : Arch) (old : Datatype) (runs : List Block) : Prop :=
  ∀ run ∈ runs, run.length = 0 ∨ old.Fits arch run.length run.length old.extent

/-- Whether blocks at a stride are recorded as asked for, by the path that handles them. -/
def BlocksFit (arch : Arch) (old : Datatype) (count bLength : Nat) (stride : Int) : Prop :=
  if bLength = 1 then old.Fits arch count count stride
  else
    old.Fits arch bLength bLength old.extent ∧
      (construct.add old bLength 0 old.extent).Fits arch count count stride

/-- Whether every `opal_datatype_add` of a call records the copies it stands for. -/
def Fits (arch : Arch) (types : Nat → Datatype) : Call → Prop
  | .contiguous count old =>
    count = 0 ∨ (types old).Fits arch count count (types old).extent
  | .vector count bLength stride old =>
    count = 0 ∨ bLength = 0 ∨
      if (bLength : Int) = stride ∨ count ≤ 1 then
        (types old).Fits arch (count * bLength) (count * bLength) (types old).extent
      else BlocksFit arch (types old) count bLength (int64 ((types old).extent * stride))
  | .hvector count bLength stride old =>
    count = 0 ∨ bLength = 0 ∨
      if int64 ((types old).extent * bLength) = stride ∨ count ≤ 1 then
        -- The number of copies is a product of two `int`.
        (types old).Fits arch (sizeT (int32 (count * bLength))).toNat (count * bLength)
          (types old).extent
      else BlocksFit arch (types old) count bLength stride
  | .indexed blocks old =>
    RunsFit arch (types old) (runsOf (fun length => length) (blocks.filter (·.length ≠ 0)))
  | .hindexed blocks old =>
    RunsFit arch (types old)
      (runsOf (fun length => length * (types old).extent) (blocks.filter (·.length ≠ 0)))
  | .indexedBlock bLength displacements old =>
    bLength = 0 ∨
      RunsFit arch (types old)
        (runsOf (fun length => length) (displacements.map (⟨bLength, ·⟩)))
  | .hindexedBlock bLength displacements old =>
    bLength = 0 ∨
      RunsFit arch (types old)
        (runsOf (fun length => length * (types old).extent) (displacements.map (⟨bLength, ·⟩)))
  | .struct fields =>
    ∀ run ∈ fieldRuns types fields,
      run.length = 0 ∨
        (types run.type).Fits arch run.length run.length (types run.type).extent

end Call

section Maps

variable {n : Nat} {place : Nat → Int} {m : List Slot} {d e : Offset}

theorem placed_eq (at_stride : ∀ j, (place j : Offset) = d + j * e) :
    placed n place m = shift d (copies n e m) := by
  rw [shift_copies]
  simp only [copies, shift_shift]
  exact flatMap_congr fun j _ => by rw [at_stride]

/-- Rows of copies at a stride are copies of a row. -/
theorem flatMap_placed_eq {count : Nat} {at_row : Nat → Nat → Int} {s : Offset}
    (at_stride : ∀ i j, (at_row i j : Offset) = i * s + j * e) :
    ((List.range count).flatMap fun i : Nat => placed n (at_row i) m)
      = copies count s (copies n e m) := by
  exact flatMap_congr fun i _ => placed_eq (at_stride i)

/-- Rows without a gap between them are one longer row. -/
theorem copies_joined {count : Nat} (rows : 0 < count) (contiguous : d = n * e ∨ count ≤ 1) :
    copies count d (copies n e m) = copies (count * n) e m := by
  rcases contiguous with rfl | one
  · rw [← copies_mul]
  · obtain rfl : count = 1 := by omega
    simp

end Maps

section Runs

variable {reach : Nat → Int} {m : List Slot} {e : Offset} (place : Int → Offset)
  (moves : ∀ x n, place (int64 (x + reach n)) = place x + n * e)

include moves

/-- Joined blocks stand for the same copies as the blocks themselves. -/
theorem mergeRuns_flatMap (run : Block) (endat : Int) (ends : place endat = place run.disp + run.length * e)
    (blocks : List Block) :
    (mergeRuns reach run endat blocks).flatMap
        (fun block => shift (place block.disp) (copies block.length e m))
      = shift (place run.disp) (copies run.length e m) ++
        blocks.flatMap (fun block => shift (place block.disp) (copies block.length e m)) := by
  induction blocks generalizing run endat with
  | nil => simp [mergeRuns]
  | cons block blocks ih =>
    unfold mergeRuns
    split
    · -- The block starts where the run ends, so it is the rest of a longer run.
      rename_i joined
      have longer : place (int64 (endat + reach block.length))
          = place run.disp + ((run.length + block.length : ℕ) : Offset) * e := by
        rw [moves, ends]
        push_cast
        ring
      rw [ih _ _ longer, copies_add, shift_append, shift_shift, flatMap_cons, ← joined, ends,
        append_assoc, add_comm ((run.length : Offset) * e)]
    · rw [flatMap_cons, ih _ _ (moves _ _), flatMap_cons]

theorem runsOf_flatMap (blocks : List Block) :
    (runsOf reach blocks).flatMap
        (fun block => shift (place block.disp) (copies block.length e m))
      = blocks.flatMap (fun block => shift (place block.disp) (copies block.length e m)) := by
  cases blocks with
  | nil => rfl
  | cons block blocks => exact mergeRuns_flatMap place moves _ _ (moves _ _) _

end Runs

section Fields

variable {types : Nat → Datatype} {maps : Nat → List Slot}

/-- The copies a field stands for. -/
def Field.slots (types : Nat → Datatype) (maps : Nat → List Slot) (field : Field) : List Slot :=
  shift (field.disp : Offset)
    (copies field.length ((types field.type).extent : Offset) (maps field.type))

/-- Joined fields stand for the same copies as the fields themselves. -/
theorem mergeFields_flatMap (run : Field) (endto : Int)
    (ends : (endto : Offset) = run.disp + run.length * ((types run.type).extent : Offset))
    (fields : List Field) :
    (mergeFields types run endto fields).flatMap (Field.slots types maps)
      = run.slots types maps ++ fields.flatMap (Field.slots types maps) := by
  induction fields generalizing run endto with
  | nil => simp [mergeFields]
  | cons field fields ih =>
    unfold mergeFields
    split
    · rename_i joined
      rw [ih _ _ (by simp), flatMap_cons, ← append_assoc]
      -- The field has the type of the run and starts at its end.
      simp only [Field.slots, joined.1, joined.2, ends, copies_add, shift_append, shift_shift,
        add_comm ((run.length : Offset) * _)]
    · rw [flatMap_cons, ih _ _ (by simp [mul_comm]), flatMap_cons]

theorem fieldRuns_flatMap (fields : List Field) :
    (fieldRuns types fields).flatMap (Field.slots types maps)
      = fields.flatMap (Field.slots types maps) := by
  -- The fields in front of the first non-empty one stand for nothing.
  have dropped : ∀ fields : List Field,
      (fields.dropWhile (·.length = 0)).flatMap (Field.slots types maps)
        = fields.flatMap (Field.slots types maps) := by
    intro fields
    induction fields with
    | nil => rfl
    | cons field fields ih =>
      by_cases zero : field.length = 0
      · simpa [zero, Field.slots] using ih
      · simp [zero]
  rw [← dropped fields]
  unfold fieldRuns
  split
  · rename_i none
    rw [none]
  · rename_i field rest cons
    rw [cons, mergeFields_flatMap _ _ (by simp [mul_comm]), flatMap_cons]

end Fields

/-- A type has the wanted type map exactly on a condition, and is well formed under it. -/
structure Correct (arch : Arch) (t : Datatype) (wanted : List Slot) (fits : Prop) : Prop where
  iff : t.typeMap arch = wanted ↔ fits
  wellFormed : fits → WellFormed arch t wanted

/-- A call builds the type map of the standard exactly when its adds fit. -/
def Call.Right (arch : Arch) (types : Nat → Datatype) (maps : Nat → List Slot) (call : Call) :
    Prop :=
  Correct arch (call.build types) (call.typeMap (fun handle => (types handle).extent) maps)
    (call.Fits arch types)

/-- A correct type that is never too long, so that a mistake shows in all that is built on it. -/
structure Stackable (arch : Arch) (t : Datatype) (wanted : List Slot) (fits : Prop) : Prop
    extends Correct arch t wanted fits where
  short : ∃ m, Describes arch t m ∧ m.length ≤ wanted.length

section Calls

variable {arch : Arch} {old : Datatype} {m wanted : List Slot} {types : Nat → Datatype}
  {maps : Nat → List Slot} {fits : Prop}

/-- A type made of parts is correct on the condition that its parts fit. -/
theorem MadeOf.correct {t : Datatype} {parts : List Part} {partMap : Part → List Slot}
    (made : MadeOf t parts) (good : ∀ part ∈ parts, WellFormed arch part.old (partMap part))
    (map : parts.flatMap (fun part => part.slots (partMap part)) = wanted)
    (condition : (∀ part ∈ parts, part.Fits arch) ↔ fits) : Correct arch t wanted fits := by
  subst map
  exact ⟨(made.typeMap_iff good).trans condition,
    fun holds => made.wellFormed good (condition.mpr holds)⟩

/-- The parts of a block constructor. -/
def runParts (old : Datatype) (place : Int → Int) (runs : List Block) : List Part :=
  runs.map fun run => ⟨old, run.length, place run.disp⟩

section Rows

variable (good : WellFormed arch old m) {place : Int → Int} {runs : List Block}

include good

theorem runParts_wellFormed :
    ∀ part ∈ runParts old place runs, WellFormed arch part.old ((fun _ => m) part) := by
  simp [runParts, good]

theorem createRuns_madeOf (place : Int → Int)
    (runs : List Block) : MadeOf (createRuns old place runs) (runParts old place runs) := by
  cases runs with
  | nil => exact null_madeOf (by simp [runParts])
  | cons run runs =>
    have same : createRuns old place (run :: runs)
        = addParts construct (runParts old place (run :: runs)) := by
      simp [createRuns, addRuns, addParts, runParts, foldl_map]
    rw [same]
    exact addParts_madeOf (runParts_wellFormed good)

/-- A block constructor, with or without the guard for types that have no data. -/
theorem runs_correct {t : Datatype} (made : MadeOf t (runParts old place runs))
    (map : runs.flatMap (fun run => shift (place run.disp : Offset)
      (copies run.length (old.extent : Offset) m)) = wanted) :
    Correct arch t wanted (Call.RunsFit arch old runs) := by
  refine made.correct (runParts_wellFormed good) ?_ ?_
  · rw [← map, runParts, flatMap_map]
    rfl
  · simp [runParts, Call.RunsFit, Part.Fits]

theorem guarded_madeOf (place : Int → Int) (runs : List Block) :
    MadeOf (if old.size = 0 then null.clone else createRuns old place runs)
      (runParts old place runs) := by
  split
  · rename_i size
    exact null_madeOf (by simp [runParts, size])
  · exact createRuns_madeOf good place runs

end Rows

/-- A displacement in extents, as the indexed constructors turn it into bytes. -/
theorem place_extents (x : Int) (n : Nat) :
    ((int64 (int64 (x + n) * old.extent) : Int) : Offset)
      = ((int64 (x * old.extent) : Int) : Offset) + n * (old.extent : Offset) := by
  simp [add_mul]

theorem place_bytes (x : Int) (n : Nat) :
    (id (int64 (x + n * old.extent)) : Offset) = id x + n * (old.extent : Offset) := by
  simp

theorem contiguous_correct (good : WellFormed arch old m) (count : Nat) :
    (Call.contiguous count 0).Right arch (fun _ => old) (fun _ => m) := by
  have made : MadeOf (createContiguous count old) (runParts old id [⟨count, 0⟩]) := by
    unfold createContiguous
    split
    · rename_i none
      exact null_madeOf (by simpa [runParts, or_comm] using none)
    · exact createRuns_madeOf good id [⟨count, 0⟩]
  simp only [Call.Right, Call.build, Call.typeMap, Call.Fits]
  rw [placed_eq (d := 0) (e := old.extent) (by simp)]
  have correct : Correct arch (createContiguous count old)
      (shift 0 (copies count (old.extent : Offset) m)) (Call.RunsFit arch old [⟨count, 0⟩]) :=
    runs_correct good made (by simp)
  simpa [Call.RunsFit] using correct

theorem null_stackable {wanted : List Slot} (nothing : wanted = []) (holds : fits) :
    Stackable arch null.clone wanted fits := by
  subst nothing
  have good : WellFormed arch null.clone [] := null_userMade.wellFormed_nil rfl rfl
  exact ⟨⟨iff_of_true rfl holds, fun _ => good⟩, [], good.toDescribes, le_rfl⟩

/-- Copies of a type are built exactly when the type is and the add fits. -/
theorem Stackable.add {t : Datatype} {asked : Nat} (inner : Stackable arch t wanted fits)
    (some : 0 < asked) (disp extent : Int) :
    Stackable arch (construct.add t asked disp extent)
      (shift (disp : Offset) (copies asked (extent : Offset) wanted))
      (fits ∧ t.Fits arch asked asked extent) := by
  obtain ⟨m, describes, short⟩ := inner.short
  obtain ⟨whole, denotes⟩ := piece_denotes describes asked disp extent
  obtain ⟨whole_short, start⟩ := piece_bound describes denotes
  have built : Denotes arch (construct.add t asked disp extent).desc whole := by
    rw [add_desc]
    simpa using denotes
  have user := construct_userMade.add t asked disp extent
  refine ⟨⟨?_, fun both => ?_⟩, whole, ⟨built, ?_⟩, ?_⟩
  · rw [Datatype.typeMap, built.expand_eq]
    by_cases good : fits
    · rw [piece_iff (inner.wellFormed good) denotes some]
      simp [good]
    -- A type that is wrong stays visible at the start of what is built from it.
    refine iff_of_false (fun same => good (inner.iff.mp ?_)) (fun both => good both.1)
    rw [Datatype.typeMap, describes.denotes.expand_eq]
    -- Nothing can be missing in the whole, so nothing is missing in the type.
    have length : whole.length = asked * wanted.length := by simp [same]
    have full : m.length = wanted.length := by
      refine Nat.le_antisymm short (Nat.le_of_mul_le_mul_left ?_ some)
      omega
    have first := start (by rw [length, full]) some
    have begins := take_copies (e := (extent : Offset)) (m := shift (disp : Offset) wanted)
      (show 1 ≤ asked from some)
    rw [copies_one, one_mul, length_shift, ← full, ← shift_copies, ← same, first] at begins
    exact shift_inj.mp begins
  · have fresh : WellFormed arch construct [] := construct_userMade.wellFormed_nil rfl rfl
    have added : WellFormed arch (construct.add t asked disp extent) _ :=
      fresh.add construct_userMade (inner.wellFormed both.1) some both.2
    simpa using added
  · intro b predefined
    simp [user.predefined?] at predefined
  · simpa using whole_short.trans (Nat.mul_le_mul_left asked short)

section Rows

variable (good : WellFormed arch old m)

include good

theorem single_correct {passed asked : Nat} {extent : Int} (some : 0 < asked) :
    Correct arch (construct.add old passed 0 extent) (copies asked (extent : Offset) m)
      (old.Fits arch passed asked extent) :=
  ⟨single_iff good some, single_wellFormed good some⟩

theorem WellFormed.stackable : Stackable arch old m True :=
  ⟨⟨iff_of_true good.denotes.expand_eq trivial, fun _ => good⟩, m, good.toDescribes, le_rfl⟩

theorem single_stackable {asked : Nat} {extent : Int} (some : 0 < asked) :
    Stackable arch (construct.add old asked 0 extent) (copies asked (extent : Offset) m)
      (old.Fits arch asked asked extent) := by
  simpa using good.stackable.add some 0 extent

/-- Blocks at a stride, by the path for single copies or the one for longer blocks. -/
theorem blocks_stackable {count bLength : Nat} {stride : Int} (rows : 0 < count)
    (row : 0 < bLength) :
    Stackable arch
      (if bLength = 1 then construct.add old count 0 stride
       else
        construct.add (construct.add old bLength 0 old.extent) count 0 stride)
      (copies count (stride : Offset) (copies bLength (old.extent : Offset) m))
      (Call.BlocksFit arch old count bLength stride) := by
  unfold Call.BlocksFit
  split
  · rename_i one
    subst one
    rw [copies_one]
    exact single_stackable good rows
  · simpa using (single_stackable good row).add rows 0 stride

theorem vector_stackable (count bLength : Nat) (stride : Int) :
    Stackable arch (createVector count bLength stride old)
      ((Call.vector count bLength stride 0).typeMap (fun _ => old.extent) (fun _ => m))
      ((Call.vector count bLength stride 0).Fits arch (fun _ => old)) := by
  simp only [Call.typeMap, Call.Fits]
  rw [flatMap_placed_eq (s := ((old.extent * stride : Int) : Offset)) (e := (old.extent : Offset))
    (by intro i j; push_cast; ring)]
  unfold createVector
  split
  · rename_i none
    exact null_stackable (by rcases none with rfl | rfl <;> simp) (by omega)
  rename_i none
  push Not at none
  have rows : 0 < count := Nat.pos_of_ne_zero none.1
  have row : 0 < bLength := Nat.pos_of_ne_zero none.2
  simp only [none.1, none.2, false_or]
  split
  · rename_i contiguous
    rw [copies_joined rows (contiguous.imp_left (by rintro rfl; simp [mul_comm]))]
    exact single_stackable good (Nat.mul_pos rows row)
  · rw [← cast_int64]
    exact blocks_stackable good rows row

theorem hvector_correct (count bLength : Nat) (stride : Int) :
    (Call.hvector count bLength stride 0).Right arch (fun _ => old) (fun _ => m) := by
  simp only [Call.Right, Call.build, Call.typeMap, Call.Fits]
  rw [flatMap_placed_eq (s := (stride : Offset)) (e := (old.extent : Offset))
    (by intro i j; push_cast; ring)]
  unfold createHvector
  split
  · rename_i none
    exact (null_stackable (by rcases none with rfl | rfl <;> simp) (by omega)).toCorrect
  rename_i none
  push Not at none
  have rows : 0 < count := Nat.pos_of_ne_zero none.1
  have row : 0 < bLength := Nat.pos_of_ne_zero none.2
  simp only [none.1, none.2, false_or]
  split
  · -- The stride is compared in bytes, so it may agree with the row only modulo the word.
    rename_i contiguous
    rw [copies_joined rows (contiguous.imp_left (by rintro rfl; simp [mul_comm]))]
    exact single_correct good (Nat.mul_pos rows row)
  · exact (blocks_stackable good rows row).toCorrect

end Rows

/-- Leaving out empty blocks leaves out no copy. -/
theorem flatMap_filter_placed (place : Int → Nat → Int) (blocks : List Block) :
    ((blocks.filter (·.length ≠ 0)).flatMap fun block =>
        placed block.length (place block.disp) m)
      = blocks.flatMap fun block => placed block.length (place block.disp) m := by
  induction blocks with
  | nil => rfl
  | cons block blocks ih =>
    by_cases zero : block.length = 0
    · simpa [zero, placed] using ih
    · simpa [zero] using ih

section Blocks

variable {reach : Nat → Int} (byte : Int → Int) (place : Int → Nat → Int)
  (moves : ∀ x n, (byte (int64 (x + reach n)) : Offset) = byte x + n * (old.extent : Offset))
  (at_stride : ∀ x j, (place x j : Offset) = byte x + j * (old.extent : Offset))

include moves at_stride

/-- The runs of a list of blocks stand for its copies, whatever the displacements count. -/
theorem runs_map (blocks : List Block) :
    (runsOf reach blocks).flatMap (fun run => shift (byte run.disp : Offset)
        (copies run.length (old.extent : Offset) m))
      = blocks.flatMap fun block => placed block.length (place block.disp) m := by
  rw [runsOf_flatMap (fun x => (byte x : Offset)) moves]
  exact flatMap_congr fun _ _ => (placed_eq (at_stride _)).symm

variable (good : WellFormed arch old m)

include good

/-- Blocks of their own lengths, without those that are empty. -/
theorem blocks_correct (blocks : List Block) :
    Correct arch (if old.size = 0 then null.clone
        else createRuns old byte (runsOf reach (blocks.filter (·.length ≠ 0))))
      (blocks.flatMap fun block => placed block.length (place block.disp) m)
      (Call.RunsFit arch old (runsOf reach (blocks.filter (·.length ≠ 0)))) := by
  refine runs_correct good (guarded_madeOf good _ _) ?_
  rw [runs_map byte place moves at_stride]
  exact flatMap_filter_placed place blocks

/-- Blocks of one length. -/
theorem equalBlocks_correct (bLength : Nat) (displacements : List Int) :
    Correct arch (if bLength = 0 then null.clone
        else createRuns old byte (runsOf reach (displacements.map (⟨bLength, ·⟩))))
      (displacements.flatMap fun disp => placed bLength (place disp) m)
      (bLength = 0 ∨ Call.RunsFit arch old (runsOf reach (displacements.map (⟨bLength, ·⟩)))) := by
  split
  · rename_i zero
    exact (null_stackable (by simp [zero, placed]) (.inl zero)).toCorrect
  · rename_i some
    simp only [some, false_or]
    refine runs_correct good (createRuns_madeOf good _ _) ?_
    rw [runs_map byte place moves at_stride, flatMap_map]

end Blocks

/-- The parts of a struct. -/
def fieldParts (types : Nat → Datatype) (runs : List Field) : List Part :=
  runs.map fun run => ⟨types run.type, run.length, run.disp⟩

section Fields

variable (good : ∀ handle, WellFormed arch (types handle) (maps handle))

include good

theorem fieldParts_wellFormed (runs : List Field) :
    ∀ part ∈ fieldParts types runs, WellFormed arch part.old (part.old.typeMap arch) := by
  intro part mem
  obtain ⟨run, -, rfl⟩ := mem_map.mp mem
  have map : (types run.type).typeMap arch = maps run.type := (good run.type).denotes.expand_eq
  rw [map]
  exact good run.type

theorem createStruct_madeOf (fields : List Field) :
    MadeOf (createStruct types fields) (fieldParts types (fieldRuns types fields)) := by
  unfold createStruct
  split
  · rename_i none
    rw [none]
    exact null_madeOf (by simp [fieldParts])
  · have made := addParts_madeOf (fieldParts_wellFormed good (fieldRuns types fields))
    rwa [addParts, fieldParts, foldl_map] at made

theorem struct_correct (fields : List Field) : (Call.struct fields).Right arch types maps := by
  refine (createStruct_madeOf good fields).correct (fieldParts_wellFormed good _) ?_
    (by simp [fieldParts, Part.Fits, Call.Fits])
  have map : ∀ handle, (types handle).typeMap arch = maps handle :=
    fun handle => (good handle).denotes.expand_eq
  calc (fieldParts types (fieldRuns types fields)).flatMap
        (fun part => part.slots (part.old.typeMap arch))
      = (fieldRuns types fields).flatMap (Field.slots types maps) := by
        simp only [fieldParts, flatMap_map, map]
        rfl
    _ = fields.flatMap (Field.slots types maps) := fieldRuns_flatMap fields
    _ = _ := flatMap_congr fun field _ => (placed_eq (by simp)).symm

/-- Every constructor builds the type map of the standard exactly when its adds fit. -/
theorem call_correct (call : Call) : call.Right arch types maps := by
  cases call with
  | contiguous count old => exact contiguous_correct (good old) count
  | vector count bLength stride old => exact (vector_stackable (good old) count bLength stride).toCorrect
  | hvector count bLength stride old => exact hvector_correct (good old) count bLength stride
  | indexed blocks old =>
    exact blocks_correct _ (fun x j => (x + j) * (types old).extent) place_extents
      (by simp [add_mul]) (good old) blocks
  | hindexed blocks old =>
    exact blocks_correct id (fun x j => x + j * (types old).extent) place_bytes (by simp)
      (good old) blocks
  | indexedBlock bLength displacements old =>
    exact equalBlocks_correct _ (fun x j => (x + j) * (types old).extent) place_extents
      (by simp [add_mul]) (good old) bLength displacements
  | hindexedBlock bLength displacements old =>
    exact equalBlocks_correct id (fun x j => x + j * (types old).extent) place_bytes (by simp)
      (good old) bLength displacements
  | struct fields => exact struct_correct good fields

end Fields

end Calls

/-- Types made by calls that all fit, with the type map of the standard for each of them. -/
inductive Built (arch : Arch) : Datatype → List Slot → Prop where
  | basic (b : Basic) : Built arch (.ofBasic arch b) [(b, 0)]
  | marker (id : Id) (bound : id = .lb ∨ id = .ub) : Built arch (.marker id) []
  | duplicated {t m} : Built arch t m → Built arch t.clone m
  | resized {t m} (lb extent : Int) : Built arch t m → Built arch (t.clone.resize lb extent) m
  | committed {t m} (restricted : Bool) (optDesc : List Entry) : Built arch t m →
      Built arch { t with flags := { t.flags with committed := true, restricted }, optDesc } m
  | called {types maps} (call : Call) : (∀ handle : Nat, Built arch (types handle) (maps handle)) →
      call.Fits arch types →
      Built arch (call.build types) (call.typeMap (fun handle => (types handle).extent) maps)

theorem Built.wellFormed {arch : Arch} {t : Datatype} {m : List Slot} (built : Built arch t m) :
    WellFormed arch t m := by
  induction built with
  | basic b =>
    refine ⟨⟨?_, ?_⟩, by simp, by simp [ofBasic], by simp [ofBasic]⟩
    · simpa [Elem.slots, ofBasic] using Denotes.single arch ⟨b, 1, 1, arch.size b, 0⟩
    · intro c predefined
      simp only [Datatype.predefined?, ofBasic, Bool.and_self, if_true,
        Option.some.injEq] at predefined
      subst predefined
      exact ⟨rfl, rfl⟩
  | marker id bound =>
    refine ⟨⟨.nil, ?_⟩, by simp [Datatype.marker], fun _ => rfl, fun _ => rfl⟩
    simp [Datatype.predefined?, Datatype.marker]
  | duplicated _ good =>
    exact ⟨⟨good.denotes, by simp [Datatype.predefined?, clone]⟩, good.filled, good.empty,
      good.marker⟩
  | resized lb extent _ good =>
    exact ⟨⟨good.denotes, by simp [Datatype.predefined?, clone, resize]⟩,
      good.filled, good.empty, good.marker⟩
  | committed restricted optDesc _ good =>
    exact ⟨{ good with }, good.filled, good.empty, good.marker⟩
  | called call _ fits good => exact (call_correct good call).wellFormed fits

/--
The constructors and the type maps of the standard.

Types built by calls that fit have the type map the standard gives them.
One more call on such types is right exactly when it fits too.
-/
theorem constructors_build_type_map (arch : Arch) :
    (∀ t m, Built arch t m → t.typeMap arch = m) ∧
      ∀ types maps, (∀ handle, Built arch (types handle) (maps handle)) → ∀ call : Call,
        (call.build types).typeMap arch
            = call.typeMap (fun handle => (types handle).extent) maps ↔
          call.Fits arch types := by
  refine ⟨fun t m built => built.wellFormed.denotes.expand_eq, fun types maps built call => ?_⟩
  exact (call_correct (fun handle => (built handle).wellFormed) call).iff

/-- Two blocks of two `int` at a stride of three. -/
theorem vector_of_int4 :
    (Call.vector 2 2 3 0).Fits lp64 (fun _ => .ofBasic lp64 .int4) ∧
      ((Call.vector 2 2 3 0).build (fun _ => .ofBasic lp64 .int4)).typeMap lp64
        = (Call.vector 2 2 3 0).typeMap (fun _ => (ofBasic lp64 .int4).extent)
          (fun _ => [(.int4, 0)]) := by
  have good : ∀ _ : Nat, WellFormed lp64 (.ofBasic lp64 .int4) [(.int4, 0)] :=
    fun _ => (Built.basic .int4).wellFormed
  have same : ((Call.vector 2 2 3 0).build (fun _ => .ofBasic lp64 .int4)).typeMap lp64
      = (Call.vector 2 2 3 0).typeMap (fun _ => (ofBasic lp64 .int4).extent)
        (fun _ => [(.int4, 0)]) := by decide +kernel
  have fits := (call_correct good (.vector 2 2 3 0)).iff.mp same
  exact ⟨fits, ((constructors_build_type_map lp64).2 _ _ (fun _ => .basic .int4) _).mpr fits⟩

theorem hvector_length (count bLength old : Nat) (stride : Int) (extent : Nat → Int)
    (maps : Nat → List Slot) :
    ((Call.hvector count bLength stride old).typeMap extent maps).length
      = count * (bLength * (maps old).length) := by
  simp [Call.typeMap, placed]

/-- The type map of a single record. -/
theorem length_typeMap_single {t : Datatype} {e : Elem} (only : t.desc = [.elem e]) :
    (t.typeMap lp64).length = e.count * e.blocklen := by
  rw [Datatype.typeMap, only, (Denotes.single lp64 _).expand_eq]
  simp [Elem.slots]

/-- One record with a wrapped count stands for far fewer copies than the standard asks for. -/
theorem hvector_wraps {t : Datatype} (inner : t.desc = [.elem ⟨.int1, 65537, 1, 2, 0⟩])
    (outer : ((Call.hvector 65537 1 131074 0).build (fun _ => t)).desc
      = [.elem ⟨.int1, 131073, 1, 2, 0⟩]) :
    ((Call.hvector 65537 1 131074 0).build (fun _ => t)).typeMap lp64
      ≠ (Call.hvector 65537 1 131074 0).typeMap (fun _ => t.extent) (fun _ => t.typeMap lp64) := by
  intro same
  have lengths := congrArg List.length same
  rw [hvector_length, length_typeMap_single outer, length_typeMap_single inner] at lengths
  exact absurd lengths (by decide)

/-- The types of bytes that the failing calls start from. -/
def everySecondByte : Datatype := createHvector 65537 1 2 (.ofBasic lp64 .int1)

/--
Three calls that miss the type map of the standard.

A stride of one byte backwards is taken for the request of the default extent.
The number of copies in a row of rows is an `int` product and becomes zero.
A product of two counts of 65537 passes the overflow test although it wrapped around.
-/
theorem hvector_misses_type_map :
    ((Call.hvector 2 1 (-1) 0).build (fun _ => .ofBasic lp64 .int1)).typeMap lp64
        ≠ (Call.hvector 2 1 (-1) 0).typeMap (fun _ => 1) (fun _ => [(.int1, 0)]) ∧
      ((Call.hvector 65536 65536 65536 0).build (fun _ => .ofBasic lp64 .int1)).typeMap lp64
        ≠ (Call.hvector 65536 65536 65536 0).typeMap (fun _ => 1) (fun _ => [(.int1, 0)]) ∧
      ((Call.hvector 65537 1 131074 0).build (fun _ => everySecondByte)).typeMap lp64
        ≠ (Call.hvector 65537 1 131074 0).typeMap (fun _ => everySecondByte.extent)
          (fun _ => everySecondByte.typeMap lp64) := by
  refine ⟨by decide +kernel, fun same => ?_, hvector_wraps (by decide +kernel) (by decide +kernel)⟩
  -- No record is appended, but the standard asks for a copy in every place.
  have none : ((Call.hvector 65536 65536 65536 0).build
      (fun _ => .ofBasic lp64 .int1)).desc = [] := by decide +kernel
  have lengths := congrArg List.length same
  rw [hvector_length, Datatype.typeMap, none] at lengths
  simp [expand] at lengths

end EduMpi.Ddt
