import EduMpi.Ddt.CommitLaws

/-! The types that the constructors of the MPI layer make, and the number of their elements. -/

namespace EduMpi.Ddt

open Ints Strided

/-- The types that constructors make, as long as sizes and counters fit their fields. The flag is
set for a new type that only adds have changed; all others are never added to. -/
inductive Assembled (arch : Arch) : Bool → Datatype → Prop where
  | constructed : Assembled arch true .construct
  | added {base old grown} (count : Nat) (disp extent : Int) : Assembled arch true base →
      Assembled arch grown old → old.Counted arch count extent →
      base.size + count * old.size < 2 ^ 64 →
      (base.add old count disp extent).desc.length < 2 ^ 31 →
      Assembled arch true (base.add old count disp extent)
  | basic (b : Basic) : arch.size b < 2 ^ 64 → Assembled arch false (.ofBasic arch b)
  | lbMarker : Assembled arch false (.marker .lb)
  | ubMarker : Assembled arch false (.marker .ub)
  | null : Assembled arch false .null
  | cloned {grown t} : Assembled arch grown t → Assembled arch false t.clone
  | resized {grown t} (lb extent : Int) : Assembled arch grown t →
      Assembled arch false (t.resize lb extent)
  | committed {grown t} : Assembled arch grown t → Assembled arch false (t.commit arch)

variable {arch : Arch} {grown : Bool} {t base old : Datatype} {m : List Slot}

/-- A grown type is not predefined. -/
theorem Assembled.user (assembled : Assembled arch grown t) (isGrown : grown = true) :
    t.flags.predefined = false := by
  induction assembled with
  | constructed => rfl
  | added count disp extent _ _ _ _ _ ih _ => rw [Datatype.add_predefined, ih rfl]
  | _ => cases isGrown

theorem WellAdded.commit (good : WellAdded arch t m) : WellAdded arch (t.commit arch) m := by
  obtain ⟨desc, size, -, predefined, -⟩ := @commit_cases arch t
  exact ⟨desc ▸ good.shaped, size ▸ good.size, size ▸ good.size_lt, desc ▸ good.short,
    fun b basic => size ▸ good.basic b (predefined ▸ basic)⟩

theorem Assembled.wellAdded (assembled : Assembled arch grown t) : ∃ m, WellAdded arch t m := by
  induction assembled with
  | constructed => exact Added.constructed.wellAdded
  | added count disp extent base _ counted size short ihBase ihOld =>
    obtain ⟨made, good⟩ := ihBase
    obtain ⟨m, part⟩ := ihOld
    exact Datatype.wellAdded_add good part (base.user rfl) counted size short
  | basic b fits => exact (Added.basic b fits).wellAdded
  | lbMarker => exact Added.lbMarker.wellAdded
  | ubMarker => exact Added.ubMarker.wellAdded
  | null => exact Added.null.wellAdded
  | cloned _ ih => exact ih.imp fun m good => good.clone
  | resized lb extent _ ih => exact ih.imp fun m good => good.resize lb extent
  | committed _ ih => exact ih.imp fun m good => good.commit

/-- Every element has at least one byte. -/
theorem length_le_bytes (arch : Arch) (m : List Slot) : m.length ≤ (bytesOf arch m).length := by
  induction m with
  | nil => exact Nat.le_refl 0
  | cons slot m ih =>
    have := arch.size_pos slot.1
    rw [bytesOf_cons, List.length_append, List.length_cons, slotBytes, length_shift, length_line]
    omega

theorem WellAdded.typeMap_eq (good : WellAdded arch t m) : t.typeMap arch = m :=
  good.shaped.denotes.expand_eq

/-- The number of elements is that of the type map; only markers, the null type and what is made
of them without an add claim one element and have none. -/
theorem Assembled.nbElems (assembled : Assembled arch grown t) :
    t.nbElems = (t.typeMap arch).length ∨ grown = false ∧ t.nbElems = 1 ∧ t.typeMap arch = [] := by
  induction assembled with
  | constructed => exact .inl rfl
  | @added base old isGrown count disp extent madeBase madeOld counted size short ihBase ihOld =>
    left
    obtain ⟨m, good⟩ := madeBase.wellAdded
    obtain ⟨l, part⟩ := madeOld.wellAdded
    rw [good.typeMap_eq] at ihBase
    rw [part.typeMap_eq] at ihOld
    have baseElems : base.nbElems = m.length := ihBase.resolve_right fun never => nomatch never.1
    rcases Datatype.add_cases base old count disp extent with
      ⟨desc, -, same⟩ | ⟨some, filled, desc, -, grows⟩
    · rw [same, Datatype.typeMap, desc]
      exact baseElems.trans (congrArg List.length good.typeMap_eq).symm
    -- The added type has elements, so its number is right.
    obtain ⟨w, shaped, length, bytes⟩ := Datatype.describe_copies disp part filled some counted
    have oldElems : old.nbElems = l.length := by
      refine ihOld.resolve_right fun empty => filled ?_
      rw [part.size, empty.2.2]
      rfl
    have map : (base.add old count disp extent).typeMap arch = m ++ w := by
      rw [Datatype.typeMap, desc]
      exact (good.shaped.append shaped).denotes.expand_eq
    have fewer := length_le_bytes arch (m ++ w)
    rw [bytesOf_append, List.length_append, List.length_append, ← good.size] at fewer
    rw [grows, map, baseElems, oldElems, ← length, List.length_append]
    exact Nat.mod_eq_of_lt (by omega)
  | basic b _ =>
    left
    have map : (Datatype.ofBasic arch b).typeMap arch
        = Elem.slots arch ⟨b, 1, 1, arch.size b, 0⟩ := (Denotes.single arch _).expand_eq
    rw [map]
    simp [Datatype.ofBasic, Elem.slots]
  | lbMarker | ubMarker | null => exact .inr ⟨rfl, rfl, rfl⟩
  | cloned _ ih | resized lb extent _ ih => exact ih.imp_right fun empty => ⟨rfl, empty.2⟩
  | @committed isGrown t _ ih =>
    obtain ⟨desc, -, elems, -⟩ := @commit_cases arch t
    rw [elems, Datatype.typeMap, desc]
    exact ih.imp_right fun empty => ⟨rfl, empty.2⟩

end EduMpi.Ddt
