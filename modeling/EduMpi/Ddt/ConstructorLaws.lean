import EduMpi.Ddt.TypeMap

/-! The constructors build the type map of the MPI standard exactly when every add fits. -/

namespace EduMpi.Ddt

open Ints Strided List
open Datatype (add_desc construct typeMap piece_iff piece_denotes)

/-- A type made by `opal_datatype_create`, neither predefined nor a marker. -/
structure UserMade (t : Datatype) : Prop where
  predefined : t.flags.predefined = false
  id : t.id = .derived

section Add

variable {arch : Arch} {base old : Datatype} {m made written : List Slot}
  {count passed asked : Nat} {disp extent : Int}

theorem construct_userMade : UserMade construct := ⟨rfl, rfl⟩

theorem null_userMade : UserMade Datatype.null.clone := ⟨rfl, rfl⟩

theorem UserMade.predefined? (user : UserMade base) : base.predefined? = none := by
  simp [Datatype.predefined?, user.predefined]

theorem UserMade.add (user : UserMade base) (old : Datatype) (count : Nat) (disp extent : Int) :
    UserMade (base.add old count disp extent) := by
  unfold Datatype.add
  split
  · exact user
  split
  · exact { user with }
  · exact { user with }
  split
  · exact user
  split <;> exact { user with }

/-- A type without records and without bytes has an empty type map. -/
theorem UserMade.wellFormed_nil (user : UserMade base) (desc : base.desc = [])
    (size : base.size = 0) : WellFormed arch base [] where
  denotes := desc ▸ .nil
  basic := fun b predefined => by simp [user.predefined?] at predefined
  filled := fun nonempty => absurd desc nonempty
  empty := fun _ => size
  marker := fun _ => desc

theorem Datatype.describe_ne_nil (nonempty : old.desc ≠ []) :
    old.describe count disp extent ≠ [] := by
  have loop : old.buildLoop count disp extent ≠ [] := by
    unfold Datatype.buildLoop
    split <;> simp [nonempty]
  unfold Datatype.describe
  split
  · unfold Datatype.describeBasic
    split <;> simp
  split
  · unfold Datatype.describeElem
    dsimp only
    split
    · simp
    split
    · split <;> simp
    split
    · split
      · exact loop
      · simp
    · exact loop
  · exact loop

/-- Bytes are only counted together with a record for them. -/
theorem Datatype.add_size (good : WellFormed arch old m)
    (none : old.piece count disp extent = []) :
    (base.add old count disp extent).size = base.size := by
  unfold Datatype.piece at none
  unfold Datatype.add
  split
  · rfl
  split
  · rfl
  · rfl
  split
  · rfl
  split
  · rfl
  · rename_i size
    rw [if_neg (by simp_all)] at none
    exact absurd none (Datatype.describe_ne_nil fun empty => size (good.empty empty))

/-- An add that fits appends the copies asked for to the type map. -/
theorem WellFormed.add (made_good : WellFormed arch base made) (user : UserMade base)
    (good : WellFormed arch old m) (some : 0 < asked) (fits : old.Fits arch passed asked extent) :
    WellFormed arch (base.add old passed disp extent)
      (made ++ shift (disp : Offset) (copies asked (extent : Offset) m)) := by
  obtain ⟨written, denotes⟩ := piece_denotes good.toDescribes passed disp extent
  have written_eq := (piece_iff good denotes some).mpr fits
  have user' := user.add old passed disp extent
  refine ⟨⟨?_, ?_⟩, ?_, ?_, ?_⟩
  · rw [add_desc, ← written_eq]
    exact made_good.denotes.append denotes
  · intro b predefined
    simp [user'.predefined?] at predefined
  · intro nonempty
    rw [add_desc] at nonempty
    by_cases first : base.desc = []
    · -- Some record was appended, so the added type has a type map to copy.
      have piece : old.piece passed disp extent ≠ [] := by simpa [first] using nonempty
      have filled : old.desc ≠ [] := fun empty =>
        piece (by simp [Datatype.piece, good.empty empty])
      intro nothing
      have lengths := congrArg List.length nothing
      simp only [length_append, length_shift, length_copies, length_nil,
        Nat.add_eq_zero_iff, Nat.mul_eq_zero, length_eq_zero_iff] at lengths
      exact lengths.2.elim some.ne' (good.filled filled)
    · exact append_ne_nil_of_left_ne_nil (made_good.filled first) _
  · intro empty
    rw [add_desc, append_eq_nil_iff] at empty
    rw [Datatype.add_size good empty.2]
    exact made_good.empty empty.1
  · rintro (lb | ub)
    · rw [user'.id] at lb
      cases lb
    · rw [user'.id] at ub
      cases ub

end Add

/-- A type to be added some number of times at its own extent. -/
structure Part where
  old : Datatype
  count : Nat
  disp : Int

/-- Adds part after part. -/
def addParts (base : Datatype) (parts : List Part) : Datatype :=
  parts.foldl (fun pdt part => pdt.add part.old part.count part.disp part.old.extent) base

/-- Whether a part is appended as the copies asked for; no copy is appended as nothing. -/
def Part.Fits (arch : Arch) (part : Part) : Prop :=
  part.count = 0 ∨ part.old.Fits arch part.count part.count part.old.extent

/-- The copies a part asks for, of a type with this type map. -/
def Part.slots (part : Part) (m : List Slot) : List Slot :=
  shift (part.disp : Offset) (copies part.count (part.old.extent : Offset) m)

section Parts

variable {arch : Arch} {base : Datatype} {made : List Slot} {parts : List Part}
  {maps : Part → List Slot}

/-- The records of a part as the constructor gets them. -/
def Part.written (arch : Arch) (part : Part) : List Slot :=
  expand arch (part.old.piece part.count part.disp part.old.extent)

theorem Part.written_denotes {part : Part} {m : List Slot} (good : Describes arch part.old m) :
    Denotes arch (part.old.piece part.count part.disp part.old.extent) (part.written arch) := by
  obtain ⟨written, denotes⟩ :=
    piece_denotes good part.count part.disp part.old.extent
  rwa [Part.written, denotes.expand_eq]

theorem Part.written_iff {part : Part} {m : List Slot} (good : WellFormed arch part.old m) :
    part.written arch = part.slots m ↔ part.Fits arch := by
  rcases Nat.eq_zero_or_pos part.count with zero | some
  · have none : part.old.piece 0 part.disp part.old.extent = [] := by simp [Datatype.piece]
    simp [Part.written, Part.slots, Part.Fits, zero, none, expand]
  · rw [Part.slots, piece_iff good (Part.written_denotes good.toDescribes) some]
    simp [Part.Fits, some.ne']

theorem addParts_userMade (user : UserMade base) : UserMade (addParts base parts) := by
  induction parts generalizing base with
  | nil => exact user
  | cons part parts ih => exact ih (user.add _ _ _ _)

/-- A type with the description of a list of parts, made directly or as the null type. -/
structure MadeOf (t : Datatype) (parts : List Part) : Prop where
  user : UserMade t
  desc : t.desc = (addParts construct parts).desc
  empty : t.desc = [] → t.size = 0

/-- The null type stands in for parts without any byte. -/
theorem null_madeOf (none : ∀ part ∈ parts, part.old.size = 0 ∨ part.count = 0) :
    MadeOf Datatype.null.clone parts := by
  refine ⟨null_userMade, ?_, fun _ => rfl⟩
  have kept : ∀ base : Datatype, (addParts base parts).desc = base.desc := by
    induction parts with
    | nil => exact fun _ => rfl
    | cons part parts ih =>
      intro base
      have piece : part.old.piece part.count part.disp part.old.extent = [] := by
        rcases none part mem_cons_self with size | count
        · simp [Datatype.piece, size]
        · simp [Datatype.piece, count]
      refine (ih (fun other mem => none other (mem_cons_of_mem _ mem)) _).trans ?_
      rw [add_desc, piece, append_nil]
  exact (kept construct).symm

section Good

variable (good : ∀ part ∈ parts, WellFormed arch part.old (maps part))

include good

theorem addParts_denotes (denotes : Denotes arch base.desc made) :
    Denotes arch (addParts base parts).desc (made ++ parts.flatMap (Part.written arch)) := by
  induction parts generalizing base made with
  | nil => simpa [addParts] using denotes
  | cons part parts ih =>
    -- The first part is appended behind what the base already has.
    have first := Part.written_denotes (good part mem_cons_self).toDescribes
    have grown : Denotes arch
        (base.add part.old part.count part.disp part.old.extent).desc
        (made ++ part.written arch) := by
      rw [add_desc]
      exact denotes.append first
    have rest := ih (fun other mem => good other (mem_cons_of_mem _ mem)) grown
    simpa [addParts] using rest

/-- A list of parts is built as asked for exactly when every part fits. -/
theorem addParts_iff :
    (addParts construct parts).typeMap arch
        = parts.flatMap (fun part => part.slots (maps part)) ↔
      ∀ part ∈ parts, part.Fits arch := by
  have denotes : Denotes arch (addParts construct parts).desc
      ([] ++ parts.flatMap (Part.written arch)) := addParts_denotes good .nil
  rw [typeMap, denotes.expand_eq, nil_append, flatMap_eq_iff]
  · exact forall₂_congr fun part mem => Part.written_iff (good part mem)
  · intro part mem
    simpa [Part.slots] using
      (Datatype.piece_bound (good part mem).toDescribes
        (Part.written_denotes (good part mem).toDescribes)).1

theorem addParts_wellFormed (user : UserMade base) (made_good : WellFormed arch base made)
    (fits : ∀ part ∈ parts, part.Fits arch) :
    WellFormed arch (addParts base parts)
      (made ++ parts.flatMap (fun part => part.slots (maps part))) := by
  induction parts generalizing base made with
  | nil => simpa [addParts] using made_good
  | cons part parts ih =>
    have grown : WellFormed arch (base.add part.old part.count part.disp part.old.extent)
        (made ++ part.slots (maps part)) := by
      rcases Nat.eq_zero_or_pos part.count with zero | some
      · -- No copy leaves the base as it is.
        simpa [Datatype.add, Part.slots, zero] using made_good
      · have fit := (fits part mem_cons_self).resolve_left some.ne'
        exact made_good.add user (good part mem_cons_self) some fit
    have rest := ih (fun other mem => good other (mem_cons_of_mem _ mem))
      (user.add part.old part.count part.disp part.old.extent) grown
      (fun other mem => fits other (mem_cons_of_mem _ mem))
    rwa [append_assoc] at rest

/-- Parts that leave no record behind leave the number of bytes alone. -/
theorem addParts_size (none : (addParts base parts).desc = []) :
    (addParts base parts).size = base.size := by
  induction parts generalizing base with
  | nil => rfl
  | cons part parts ih =>
    have rest : ∀ part ∈ parts, WellFormed arch part.old (maps part) :=
      fun other mem => good other (mem_cons_of_mem _ mem)
    refine (ih rest none).trans ?_
    -- Records are only ever appended, so the first part left none either.
    have kept : ∀ (parts : List Part) (base : Datatype),
        (addParts base parts).desc = [] → base.desc = [] := by
      intro parts
      induction parts with
      | nil => exact fun _ empty => empty
      | cons part parts ih =>
        intro base empty
        have first := ih _ empty
        rw [add_desc] at first
        exact (append_eq_nil_iff.mp first).1
    have first := kept parts _ none
    rw [add_desc] at first
    exact Datatype.add_size (good part mem_cons_self) (append_eq_nil_iff.mp first).2

theorem addParts_madeOf : MadeOf (addParts construct parts) parts :=
  ⟨addParts_userMade construct_userMade, rfl, fun none => addParts_size good none⟩

theorem MadeOf.typeMap_iff {t : Datatype} (made : MadeOf t parts) :
    t.typeMap arch = parts.flatMap (fun part => part.slots (maps part)) ↔
      ∀ part ∈ parts, part.Fits arch := by
  rw [← addParts_iff good, typeMap, made.desc, typeMap]

theorem MadeOf.wellFormed {t : Datatype} (made : MadeOf t parts)
    (fits : ∀ part ∈ parts, part.Fits arch) :
    WellFormed arch t (parts.flatMap fun part => part.slots (maps part)) := by
  have fresh : WellFormed arch construct [] := construct_userMade.wellFormed_nil rfl rfl
  have built := addParts_wellFormed good construct_userMade fresh fits
  refine ⟨⟨made.desc ▸ built.denotes, ?_⟩, made.desc ▸ built.filled, made.empty, ?_⟩
  · intro b predefined
    simp [made.user.predefined?] at predefined
  · simp [made.user.id]

end Good

end Parts

section Single

variable {arch : Arch} {old : Datatype} {m : List Slot} {passed asked : Nat}
  {extent : Int}

/-- A fresh type with one type added is that type repeated exactly when the add fits. -/
theorem single_iff (good : WellFormed arch old m) (some : 0 < asked) :
    (construct.add old passed 0 extent).typeMap arch
        = copies asked (extent : Offset) m ↔ old.Fits arch passed asked extent := by
  obtain ⟨written, denotes⟩ := piece_denotes good.toDescribes passed 0 extent
  rw [← piece_iff good denotes some, typeMap, add_desc]
  simp [denotes.expand_eq]

theorem single_wellFormed (good : WellFormed arch old m) (some : 0 < asked)
    (fits : old.Fits arch passed asked extent) :
    WellFormed arch (construct.add old passed 0 extent) (copies asked (extent : Offset) m) := by
  have fresh : WellFormed arch construct [] := construct_userMade.wellFormed_nil rfl rfl
  have added : WellFormed arch (construct.add old passed 0 extent)
      ([] ++ shift ((0 : Int) : Offset) (copies asked (extent : Offset) m)) :=
    fresh.add construct_userMade good some fits
  simpa using added

end Single

end EduMpi.Ddt
