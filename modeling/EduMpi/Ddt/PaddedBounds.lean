import EduMpi.Ddt.Bounds
import EduMpi.Ddt.ConstructorLaws
import Mathlib.Data.List.Perm.Basic

/-! The padded upper bound of a sequence of adds, and what depends on their order. -/

namespace EduMpi.Ddt

open Ints Strided Padding List

/-- The least upper bound that is behind every part and a multiple of the largest alignment. -/
def IsPadded (adds : List Addition) (x : Int) : Prop :=
  ∃ low, IsLeast (lowersOf adds) low ∧
    IsLeast {y | (∀ u ∈ uppersOf adds, u ≤ y) ∧ (largestAlign adds : Int) ∣ y - low} x

/-- No part set by the user. -/
def Unmarked (adds : List Addition) : Prop :=
  adds.any Addition.marksLb = false ∧ adds.any Addition.marksUb = false

section Padding

variable {lb ub : Int} {align : Nat}

theorem padUb_eq (positive : 0 < align) (spread : InRange (ub - lb))
    (padded : Int.tmod (ub - lb) align ≠ 0 → InRange (ub + (align - Int.tmod (ub - lb) align)))
    (proper : lb ≤ ub ∨ align = 1) :
    Datatype.padUb false lb ub align = padTo lb align ub := by
  unfold Datatype.padUb
  rw [if_neg Bool.false_ne_true, spread.int64_eq]
  dsimp only
  -- The remainder of C is the mathematical one only for bounds in order.
  rcases proper with ordered | rfl
  · rw [Int.tmod_eq_emod_of_nonneg (by omega)] at padded ⊢
    split
    · -- The rest up to the next multiple is what the remainder leaves of a step.
      rename_i rest
      rw [(padded rest).int64_eq]
      congr 1
      have small := Int.emod_lt_of_pos (ub - lb) (b := (align : Int)) (by omega)
      have nonneg := Int.emod_nonneg (ub - lb) (b := (align : Int)) (by omega)
      have split := Int.emod_add_mul_ediv (ub - lb) align
      refine ((Int.ediv_emod_unique (q := -((ub - lb) / align) - 1) (by omega)).mpr
        ⟨?_, by omega, by omega⟩).2.symm
      rw [mul_sub, mul_neg]
      omega
    · rename_i whole
      rw [not_not] at whole
      exact (padTo_of_dvd (Int.dvd_of_emod_eq_zero whole)).symm
  · rw [padTo]
    simp

end Padding

section Run

variable {arch : Arch} {adds before after : List Addition} {a : Addition} {t : Datatype}

/-- The adds of a claim: sound types, at least one copy each. -/
def Proper (arch : Arch) (adds : List Addition) : Prop :=
  ∀ a ∈ adds, 0 < a.count ∧ Sound arch a.old a.entries

theorem build_append : build (before ++ [a]) = a.apply (build before) := by
  simp [build]

theorem noWrap_append :
    NoWrap t (before ++ after) ↔
      NoWrap t before ∧ NoWrap (before.foldl Addition.apply t) after := by
  induction before generalizing t with
  | nil => simp [NoWrap]
  | cons a before ih => simp [NoWrap, ih, and_assoc]

theorem Proper.append (proper : Proper arch (before ++ [a])) :
    Proper arch before ∧ 0 < a.count ∧ Sound arch a.old a.entries :=
  ⟨fun other mem => proper other (mem_append_left _ mem), proper a (by simp)⟩

/-- What a prefix of exact adds leaves behind. -/
theorem known_build (proper : Proper arch adds) (exact : NoWrap .construct adds) :
    Known arch adds (build adds) := by
  induction adds using List.reverseRecOn with
  | nil => exact Known.nil arch
  | append_singleton before a ih =>
    obtain ⟨first, some, sound⟩ := proper.append
    obtain ⟨exactFirst, representable, -⟩ := noWrap_append.mp exact
    have known := ih first exactFirst
    rw [build_append]
    -- A marker only moves a bound; every other part goes through both stages.
    rcases representable with lb | ub | exactStep
    · exact known.marker some (.inl lb) sound
    · exact known.marker some (.inr ub) sound
    · by_cases marker : a.IsMarker
      · exact known.marker some marker sound
      · exact known.plain ⟨exactStep, some, marker⟩ sound

/-- Sound parts without a bound set by the user, added without a wrap. -/
structure Clean (arch : Arch) (adds : List Addition) : Prop where
  proper : Proper arch adds
  exact : NoWrap .construct adds
  unmarked : Unmarked adds

theorem Clean.front (clean : Clean arch (before ++ after)) : Clean arch before := by
  obtain ⟨proper, exact, unmarked⟩ := clean
  refine ⟨fun a mem => proper a (mem_append_left _ mem), (noWrap_append.mp exact).1, ?_⟩
  unfold Unmarked at unmarked ⊢
  simp only [any_append, Bool.or_eq_false_iff] at unmarked
  exact ⟨unmarked.1.1, unmarked.2.1⟩

theorem Clean.plain (clean : Clean arch adds) (mem : a ∈ adds) :
    ¬a.IsMarker ∧ a.old.flags.userLb = false ∧ a.old.flags.userUb = false := by
  have marksLb : a.marksLb = false := by simpa using any_eq_false.mp clean.unmarked.1 a mem
  have marksUb : a.marksUb = false := by simpa using any_eq_false.mp clean.unmarked.2 a mem
  have plain : ¬a.IsMarker := by
    rintro (id | id)
    · simp [Addition.marksLb, id] at marksLb
    · simp [Addition.marksUb, id] at marksUb
  rw [Addition.marksLb_plain plain] at marksLb
  rw [Addition.marksUb_plain plain] at marksUb
  exact ⟨plain, marksLb, marksUb⟩

theorem Clean.last (clean : Clean arch (before ++ [a])) : a.Plain (build before) := by
  have mem : a ∈ before ++ [a] := by simp
  obtain ⟨plain, -⟩ := clean.plain mem
  obtain ⟨-, representable, -⟩ := noWrap_append.mp clean.exact
  rcases representable with lb | ub | exactStep
  · exact absurd (.inl lb) plain
  · exact absurd (.inr ub) plain
  · exact ⟨exactStep, (clean.proper a mem).1, plain⟩

theorem one_le_largestAlign : 1 ≤ largestAlign adds := by
  induction adds using List.reverseRecOn with
  | nil => exact Nat.le_refl 1
  | append_singleton before a ih =>
    rw [largestAlign_append]
    exact ih.trans (Nat.le_max_left _ _)

/-- The upper bound of parts without a user bound: behind all of them, and padded. -/
structure Running (adds : List Addition) (t : Datatype) : Prop where
  proper : t.lb ≤ t.ub ∨ t.align = 1
  behind : ∀ u ∈ uppersOf adds, u ≤ t.ub
  reached : adds ≠ [] → ∃ u, IsGreatest (uppersOf adds) u

/-- One more part pads the larger of the old bound and its own. -/
theorem Running.step (running : Running before (build before))
    (clean : Clean arch (before ++ [a])) :
    (build (before ++ [a])).ub = padTo (build (before ++ [a])).lb (largestAlign (before ++ [a]))
        (max (build before).ub a.highest) ∧
      ((build (before ++ [a])).lb ≤ max (build before).ub a.highest ∨
        largestAlign (before ++ [a]) = 1) := by
  have part := clean.last
  have mem : a ∈ before ++ [a] := by simp
  obtain ⟨-, marksLb, marksUb⟩ := clean.plain mem
  have known := known_build clean.front.proper clean.front.exact
  have userLb := known.userLb.trans clean.front.unmarked.1
  have userUb := known.userUb.trans clean.front.unmarked.2
  rw [build_append, largestAlign_append, ← known.align]
  generalize build before = t at *
  have low : a.joinedLb t = min t.lb a.lowest := by
    simp [Addition.joinedLb, Datatype.joinBound, userLb, marksLb]
  have high : a.joinedUb t = max t.ub a.highest := by
    simp [Addition.joinedUb, Datatype.joinBound, userUb, marksUb]
  have noUser : (t.flags.userUb || a.old.flags.userUb) = false := by simp [userUb, marksUb]
  -- Both bounds come from parts whose own bounds are in order, or nothing is padded.
  have proper : min t.lb a.lowest ≤ max t.ub a.highest ∨ max t.align a.old.align = 1 := by
    rcases running.proper with ordered | one
    · left
      omega
    rcases (clean.proper a mem).2.proper marksLb marksUb with ordered | small
    · left
      have : a.lowest ≤ a.highest := by
        unfold Addition.lowest Addition.highest
        omega
      omega
    · right
      omega
  have positive : 0 < max t.align a.old.align := by
    rw [known.align, ← largestAlign_append]
    exact one_le_largestAlign
  rw [part.lb.trans low]
  refine ⟨?_, proper⟩
  have spread := part.spread noUser
  have padded := part.padded noUser
  rw [low, high] at spread padded
  rw [part.ub, noUser, low, high]
  exact padUb_eq positive spread padded proper

section

variable (clean : Clean arch adds)

include clean

theorem Clean.running : Running adds (build adds) := by
  -- By induction on the additions, the last one first.
  induction adds using List.reverseRecOn with
  | nil => exact ⟨.inr rfl, by simp [uppersOf], fun none => absurd rfl none⟩
  | append_singleton before a ih =>
    have running := ih clean.front
    obtain ⟨ub, ordered⟩ := running.step clean
    have plain := clean.last
    have part := Addition.highest_isGreatest plain.plain plain.some
    have align : (build (before ++ [a])).align = largestAlign (before ++ [a]) := by
      rw [build_append, plain.align, largestAlign_append,
        (known_build clean.front.proper clean.front.exact).align]
    have above : max (build before).ub a.highest ≤ (build (before ++ [a])).ub :=
      ub ▸ le_padTo one_le_largestAlign
    refine ⟨?_, ?_, fun _ => ?_⟩
    · rw [align]
      exact ordered.imp_left fun le => le.trans above
    · rw [uppersOf_append]
      rintro u (old | new)
      · exact (running.behind u old).trans ((le_max_left _ _).trans above)
      · exact (part.2 new).trans ((le_max_right _ _).trans above)
    · rw [uppersOf_append]
      by_cases none : before = []
      · exact ⟨a.highest, by simpa [none, uppersOf] using part⟩
      · obtain ⟨u, greatest⟩ := running.reached none
        exact ⟨_, greatest.union part⟩

end

theorem IsPadded.unique {x y : Int} (one : IsPadded adds x) (two : IsPadded adds y) : x = y := by
  obtain ⟨low, least, pad⟩ := one
  obtain ⟨low', least', pad'⟩ := two
  obtain rfl := least.unique least'
  exact pad.unique pad'

end Run

section Order

variable {arch : Arch} {adds other : List Addition}

section Perm

variable (perm : adds.Perm other)

include perm

theorem slotsOf_perm : (slotsOf adds).Perm (slotsOf other) :=
  perm.flatMap_right _

end Perm

/-- The fields that do not depend on the padding do not depend on the order. -/
theorem Known.perm {t s : Datatype} (known : Known arch adds t) (others : Known arch other s)
    (perm : adds.Perm other) :
    t.size = s.size ∧ t.trueLb = s.trueLb ∧ t.trueUb = s.trueUb ∧ t.lb = s.lb ∧
      (adds.any Addition.marksUb = true → t.ub = s.ub) := by
  have size : t.size = s.size := by
    rw [known.size, others.size, bytes]
    exact ((slotsOf_perm perm).map _).sum_eq
  -- Extremes of sets do not depend on the order of the additions.
  have data : t.trueLb = s.trueLb ∧ t.trueUb = s.trueUb := by
    by_cases none : slotsOf adds = []
    · have none' : slotsOf other = [] := by
        have := slotsOf_perm perm
        rw [none] at this
        exact this.nil_eq.symm
      obtain ⟨low, high⟩ := known.noData none
      obtain ⟨low', high'⟩ := others.noData none'
      exact ⟨low.trans low'.symm, high.trans high'.symm⟩
    · have some : slotsOf other ≠ [] := fun none' => none (by
        have := slotsOf_perm perm
        rw [none'] at this
        exact this.eq_nil)
      obtain ⟨low, high⟩ := known.data none
      obtain ⟨low', high'⟩ := others.data some
      simp only [starts, ends, (slotsOf_perm perm).mem_iff] at low high
      exact ⟨low.unique low', high.unique high'⟩
  have lb : t.lb = s.lb := by
    cases marked : adds.any Addition.marksLb with
    | true =>
      have low := known.lbMarked marked
      simp only [markedLowers, perm.mem_iff] at low
      exact low.unique (others.lbMarked (perm.any_eq ▸ marked))
    | false =>
      have same : lowersOf adds = lowersOf other := by simp only [lowersOf, perm.mem_iff]
      have low := known.lbFree marked
      rw [same] at low
      rcases low, others.lbFree (perm.any_eq ▸ marked) with
        ⟨⟨none, start⟩ | low, ⟨none', start'⟩ | low'⟩
      · exact start.trans start'.symm
      · exact absurd low'.1 (by simp [none])
      · exact absurd low.1 (by simp [none'])
      · exact low.unique low'
  refine ⟨size, data.1, data.2, lb, fun marked => ?_⟩
  have high := known.ubMarked marked
  simp only [markedUppers, perm.mem_iff] at high
  exact high.unique (others.ubMarked (perm.any_eq ▸ marked))

end Order

/-- Types made by sequences of adds in which nothing wraps around, with their type maps. -/
inductive Made (arch : Arch) : Datatype → List (Basic × Int) → Prop where
  | basic (b : Basic) : Made arch (.ofBasic arch b) [(b, 0)]
  | marker (id : Id) (bound : id = .lb ∨ id = .ub) : Made arch (.marker id) []
  | null : Made arch .null []
  | duplicated {t slots} : Made arch t slots → Made arch t.clone slots
  | resized {t slots} (lb extent : Int) : Made arch t slots →
      Made arch (t.clone.resize lb extent) slots
  | added (adds : List Addition) : (∀ a ∈ adds, 0 < a.count) →
      (∀ a ∈ adds, Made arch a.old a.entries) → NoWrap .construct adds →
      Made arch (build adds) (slotsOf adds)

theorem build_userMade (adds : List Addition) : UserMade (build adds) := by
  induction adds using List.reverseRecOn with
  | nil => exact construct_userMade
  | append_singleton before a ih =>
    rw [build_append]
    exact ih.add _ _ _ _

theorem Made.sound {arch : Arch} {t : Datatype} {slots : List (Basic × Int)}
    (made : Made arch t slots) : Sound arch t slots := by
  induction made with
  | basic b =>
    refine ⟨by simp [bytes, Datatype.ofBasic], fun _ => ⟨⟨?_, ?_⟩, ?_, ?_⟩, ?_, ?_⟩ <;>
      simp [starts, ends, Datatype.ofBasic, upperBounds]
  | marker id bound | null =>
    exact ⟨rfl, fun none => absurd rfl none, fun _ => ⟨rfl, rfl⟩, fun _ _ => .inl le_rfl⟩
  | duplicated _ sound => exact { sound with }
  | resized lb extent _ sound =>
    exact { sound with proper := fun user => absurd user (by simp [Datatype.resize]) }
  | added adds some _ exact sound =>
    have proper : Proper arch adds := fun a mem => ⟨some a mem, sound a mem⟩
    have known := known_build proper exact
    have user := build_userMade adds
    refine ⟨known.size, known.data, ?_, fun userLb userUb => ?_⟩
    · rintro (id | id) <;> rw [user.id] at id <;> cases id
    · have unmarked : Unmarked adds :=
        ⟨known.userLb.symm.trans userLb, known.userUb.symm.trans userUb⟩
      exact (Clean.running ⟨proper, exact, unmarked⟩).proper.imp_right Eq.le

/-- One copy of a predefined type. -/
def Addition.ofBasic (b : Basic) (disp : Int) : Addition :=
  ⟨.ofBasic lp64 b, [(b, 0)], 1, disp, lp64.size b⟩

end EduMpi.Ddt
