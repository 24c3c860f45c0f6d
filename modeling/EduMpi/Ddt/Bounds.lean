import EduMpi.Ddt.Add
import EduMpi.Lib.Padding

/-! The bounds a sequence of `opal_datatype_add` leaves, against those of the type map. -/

namespace EduMpi.Ddt

open Ints Strided Padding List

/-- The values of a `ptrdiff_t`. -/
def InRange (x : Int) : Prop := -2 ^ 63 ≤ x ∧ x < 2 ^ 63

instance (x : Int) : Decidable (InRange x) := inferInstanceAs (Decidable (_ ∧ _))

theorem InRange.int64_eq {x : Int} (inside : InRange x) : int64 x = x :=
  int64_of_mem inside.1 inside.2

/-- One `opal_datatype_add`, with the type map of the type it adds. -/
structure Addition where
  old : Datatype
  entries : List (Basic × Int)
  count : Nat
  disp : Int
  extent : Int

namespace Addition

/-- The distance between the copies. -/
def stride (a : Addition) : Int :=
  if a.extent = -1 then a.old.ub - a.old.lb else a.extent

/-- Where the last copy stands. -/
def last (a : Addition) : Int := a.disp + a.stride * (a.count - 1)

/-- The lower bound of the copies together. -/
def lowest (a : Addition) : Int := min a.disp a.last + a.old.lb

/-- The upper bound of the copies together. -/
def highest (a : Addition) : Int := max a.disp a.last + a.old.ub

/-- The copies in the type map. -/
def slots (a : Addition) : List (Basic × Int) :=
  shift a.disp (copies a.count a.stride a.entries)

/-- The lower bounds of the copies; a marker is one of its own. -/
def lowers (a : Addition) : Set Int :=
  match a.old.id with
  | .lb => {a.disp}
  | .ub => ∅
  | _ => repeats a.count a.disp a.stride a.old.lb

/-- The upper bounds of the copies; a marker is one of its own. -/
def uppers (a : Addition) : Set Int :=
  match a.old.id with
  | .lb => ∅
  | .ub => {a.disp}
  | _ => repeats a.count a.disp a.stride a.old.ub

/-- Whether the user has set the lower bound of this part. -/
def marksLb (a : Addition) : Bool :=
  match a.old.id with
  | .lb => true
  | .ub => false
  | _ => a.old.flags.userLb

/-- Whether the user has set the upper bound of this part. -/
def marksUb (a : Addition) : Bool :=
  match a.old.id with
  | .lb => false
  | .ub => true
  | _ => a.old.flags.userUb

/-- The type after this add. -/
def apply (t : Datatype) (a : Addition) : Datatype := t.add a.old a.count a.disp a.extent

/-- The lower bound before the padding is decided. -/
def joinedLb (t : Datatype) (a : Addition) : Int :=
  Datatype.joinBound min t.flags.userLb a.old.flags.userLb t.lb a.lowest

/-- The upper bound before the padding. -/
def joinedUb (t : Datatype) (a : Addition) : Int :=
  Datatype.joinBound max t.flags.userUb a.old.flags.userUb t.ub a.highest

/-- No result of the add leaves its C type. -/
structure Exact (t : Datatype) (a : Addition) : Prop where
  short : a.old.tooLong a.count = false
  stride : InRange a.stride
  last : InRange a.last
  lowest : InRange a.lowest
  highest : InRange a.highest
  size : t.size + a.count * a.old.size < 2 ^ 64
  trueLow : a.old.size ≠ 0 → InRange (a.lowest - a.old.lb + a.old.trueLb)
  trueHigh : a.old.size ≠ 0 → InRange (a.highest - a.old.ub + a.old.trueUb)
  spread : (t.flags.userUb || a.old.flags.userUb) = false →
    InRange (joinedUb t a - joinedLb t a)
  padded : (t.flags.userUb || a.old.flags.userUb) = false →
    Int.tmod (joinedUb t a - joinedLb t a) (max t.align a.old.align : Nat) ≠ 0 →
    InRange (joinedUb t a + ((max t.align a.old.align : Nat)
      - Int.tmod (joinedUb t a - joinedLb t a) (max t.align a.old.align : Nat)))

/-- A marker computes nothing that could wrap around. -/
def Representable (t : Datatype) (a : Addition) : Prop :=
  a.old.id = .lb ∨ a.old.id = .ub ∨ a.Exact t

end Addition

/-- The type a sequence of adds makes of a fresh one. -/
def build (adds : List Addition) : Datatype := adds.foldl Addition.apply .construct

/-- No add of the sequence computes a value outside its C type. -/
def NoWrap : Datatype → List Addition → Prop
  | _, [] => True
  | t, a :: rest => a.Representable t ∧ NoWrap (a.apply t) rest

/-- The type map of the sequence. -/
def slotsOf (adds : List Addition) : List (Basic × Int) := adds.flatMap Addition.slots

/-- The places where basic entries start. -/
def starts (slots : List (Basic × Int)) : Set Int := {x | ∃ slot ∈ slots, x = slot.2}

/-- The places where basic entries end. -/
def ends (arch : Arch) (slots : List (Basic × Int)) : Set Int :=
  {x | ∃ slot ∈ slots, x = slot.2 + arch.size slot.1}

/-- The number of bytes of a type map. -/
def bytes (arch : Arch) (slots : List (Basic × Int)) : Nat :=
  (slots.map fun slot => arch.size slot.1).sum

/-- The lower bounds of all copies of the sequence. -/
def lowersOf (adds : List Addition) : Set Int := {x | ∃ a ∈ adds, x ∈ a.lowers}

/-- The upper bounds of all copies of the sequence. -/
def uppersOf (adds : List Addition) : Set Int := {x | ∃ a ∈ adds, x ∈ a.uppers}

/-- The lower bounds the user has set. -/
def markedLowers (adds : List Addition) : Set Int :=
  {x | ∃ a ∈ adds, a.marksLb = true ∧ x ∈ a.lowers}

/-- The upper bounds the user has set. -/
def markedUppers (adds : List Addition) : Set Int :=
  {x | ∃ a ∈ adds, a.marksUb = true ∧ x ∈ a.uppers}

/-- The largest alignment of the parts. -/
def largestAlign (adds : List Addition) : Nat := adds.foldl (fun n a => max n a.old.align) 1

section Apply

variable {t : Datatype} {a : Addition}

/-- Whether the added type is one of the two markers. -/
def Addition.IsMarker (a : Addition) : Prop := a.old.id = .lb ∨ a.old.id = .ub

theorem Addition.Exact.repeatExtent (exact : a.Exact t) :
    a.old.repeatExtent a.extent = a.stride := by
  have inside := exact.stride
  unfold Addition.stride at inside ⊢
  unfold Datatype.repeatExtent Datatype.extent
  -- The default extent is calculated as a `ptrdiff_t`; a given one is taken as it is.
  split
  · rename_i default
    rw [if_pos default] at inside
    exact inside.int64_eq
  · rfl

theorem Addition.Exact.lbUbCont (exact : a.Exact t) (some : 0 < a.count) :
    lbUbCont a.count a.disp a.old.lb a.old.ub a.stride = (a.lowest, a.highest) := by
  have last : int64 (a.disp + a.stride * (a.count - 1)) = a.last := exact.last.int64_eq
  have low := exact.lowest.int64_eq
  have high := exact.highest.int64_eq
  unfold Ddt.lbUbCont
  rw [if_neg some.ne']
  dsimp only
  rw [last]
  unfold Addition.lowest Addition.highest at *
  -- A negative stride puts the last copy in front, so that the two ends change places.
  split
  · rename_i up
    rw [min_eq_left up.le] at low ⊢
    rw [max_eq_right up.le] at high ⊢
    rw [low, high]
  · rename_i down
    have down := not_lt.mp down
    rw [min_eq_right down] at low ⊢
    rw [max_eq_left down] at high ⊢
    rw [low, high]

/-- An exact add of a type that is no marker. -/
structure Addition.Plain (a : Addition) (t : Datatype) : Prop extends a.Exact t where
  some : 0 < a.count
  plain : ¬a.IsMarker

theorem Addition.id_of_plain (plain : ¬a.IsMarker) :
    a.old.id = .derived ∨ ∃ b, a.old.id = .basic b := by
  cases id : a.old.id with
  | lb => exact absurd (.inl id) plain
  | ub => exact absurd (.inr id) plain
  | derived => exact .inl rfl
  | basic b => exact .inr ⟨b, rfl⟩

section Parts

variable (part : a.Plain t)

include part

/-- The two stages of an add that is no marker and no error. -/
theorem Addition.Plain.apply_eq :
    a.apply t = if a.old.size = 0 then t.addBounds a.old a.count a.disp a.stride
      else (t.addBounds a.old a.count a.disp a.stride).addData a.old a.count a.disp a.stride := by
  unfold Addition.apply Datatype.add
  rw [if_neg part.some.ne']
  rcases id_of_plain part.plain with id | ⟨b, id⟩ <;>
    simp [id, part.repeatExtent, part.short]

theorem Addition.Plain.lb : (a.apply t).lb = a.joinedLb t := by
  rw [part.apply_eq]
  split <;> simp [Datatype.addData, Datatype.addBounds, part.lbUbCont part.some, Addition.joinedLb]

theorem Addition.Plain.ub :
    (a.apply t).ub = Datatype.padUb (t.flags.userUb || a.old.flags.userUb) (a.joinedLb t)
      (a.joinedUb t) (max t.align a.old.align) := by
  rw [part.apply_eq]
  split <;> simp [Datatype.addData, Datatype.addBounds, part.lbUbCont part.some, Addition.joinedLb,
    Addition.joinedUb]

theorem Addition.Plain.align : (a.apply t).align = max t.align a.old.align := by
  rw [part.apply_eq]
  split <;> rfl

theorem Addition.Plain.user :
    (a.apply t).flags.userLb = (t.flags.userLb || a.old.flags.userLb) ∧
      (a.apply t).flags.userUb = (t.flags.userUb || a.old.flags.userUb) := by
  rw [part.apply_eq]
  split <;> exact ⟨rfl, rfl⟩

theorem Addition.Plain.size_eq : (a.apply t).size = t.size + a.count * a.old.size := by
  rw [part.apply_eq]
  split
  · rename_i empty
    simp [Datatype.addBounds, empty]
  · exact Nat.mod_eq_of_lt part.toExact.size

theorem Addition.Plain.trueBounds_of_empty (empty : a.old.size = 0) :
    (a.apply t).trueLb = t.trueLb ∧ (a.apply t).trueUb = t.trueUb := by
  rw [part.apply_eq, if_pos empty]
  exact ⟨rfl, rfl⟩

end Parts

theorem int64_sub_int64 (x y : Int) : int64 (x - int64 y) = int64 (x - y) := by
  unfold int64
  omega

theorem Addition.Plain.trueBounds (part : a.Plain t) (data : a.old.size ≠ 0)
    (ordered : a.lowest - a.old.lb + a.old.trueLb ≤ a.highest - a.old.ub + a.old.trueUb) :
    (a.apply t).trueLb = min (a.lowest - a.old.lb + a.old.trueLb) t.trueLb ∧
      (a.apply t).trueUb = max (a.highest - a.old.ub + a.old.trueUb) t.trueUb := by
  -- The gaps between bounds and data are subtracted as `ptrdiff_t`, where sums wrap only once.
  have low : int64 (a.lowest - int64 (a.old.lb - a.old.trueLb))
      = a.lowest - a.old.lb + a.old.trueLb := by
    rw [int64_sub_int64, ← (part.trueLow data).int64_eq]
    congr 1
    omega
  have high : int64 (a.highest - int64 (a.old.ub - a.old.trueUb))
      = a.highest - a.old.ub + a.old.trueUb := by
    rw [int64_sub_int64, ← (part.trueHigh data).int64_eq]
    congr 1
    omega
  -- With data on board the size is not zero, so the true bounds are not reset.
  have size : (t.size + a.count * a.old.size) % 2 ^ 64 ≠ 0 := by
    rw [Nat.mod_eq_of_lt part.toExact.size]
    have := Nat.mul_pos part.some (Nat.pos_of_ne_zero data)
    omega
  rw [part.apply_eq, if_neg data]
  simp only [Datatype.addData, Datatype.addBounds, part.lbUbCont part.some, low, high, size, ne_eq,
    not_false_eq_true, if_true, min_eq_left ordered, max_eq_right ordered, and_true]

end Apply

/-- What the fields of an added type say about its type map. -/
structure Sound (arch : Arch) (t : Datatype) (slots : List (Basic × Int)) : Prop where
  size : t.size = bytes arch slots
  data : slots ≠ [] → IsLeast (starts slots) t.trueLb ∧ IsGreatest (ends arch slots) t.trueUb
  marker : t.id = .lb ∨ t.id = .ub → slots = [] ∧ t.align = 0
  proper : t.flags.userLb = false → t.flags.userUb = false → t.lb ≤ t.ub ∨ t.align ≤ 1

section Part

variable {arch : Arch} {slots : List (Basic × Int)} {t : Datatype} {a : Addition}

theorem bytes_append (more : List (Basic × Int)) :
    bytes arch (slots ++ more) = bytes arch slots + bytes arch more := by
  simp [bytes]

theorem bytes_shift (d : Int) : bytes arch (shift d slots) = bytes arch slots := by
  simp [bytes, shift, Function.comp_def]

theorem bytes_copies (n : Nat) (e : Int) :
    bytes arch (copies n e slots) = n * bytes arch slots := by
  induction n with
  | zero => simp [bytes]
  | succ n ih => rw [copies_succ, bytes_append, bytes_shift, ih, Nat.succ_mul]

theorem bytes_eq_zero : bytes arch slots = 0 ↔ slots = [] := by
  refine ⟨fun none => ?_, fun none => by simp [none, bytes]⟩
  cases slots with
  | nil => rfl
  | cons slot rest =>
    have := arch.size_pos slot.1
    simp only [bytes, map_cons, sum_cons] at none
    omega

/-- The copies start and end where the outermost copies do. -/
theorem Addition.trueBounds (some : 0 < a.count) (sound : Sound arch a.old a.entries)
    (data : a.entries ≠ []) :
    IsLeast (starts a.slots) (a.lowest - a.old.lb + a.old.trueLb) ∧
      IsGreatest (ends arch a.slots) (a.highest - a.old.ub + a.old.trueUb) := by
  obtain ⟨⟨⟨first, first_mem, first_eq⟩, least⟩, ⟨⟨final, final_mem, final_eq⟩, most⟩⟩ :=
    sound.data data
  -- A slot of the addition is a slot of one copy, moved to the displacement.
  have mem : ∀ slot, slot ∈ a.slots ↔ ∃ i < a.count, ∃ other ∈ a.entries,
      slot = (other.1, other.2 + i * a.stride + a.disp) := by
    intro slot
    simp only [Addition.slots, mem_shift, mem_copies]
    constructor
    · rintro ⟨_, ⟨i, inside, other, mem, rfl⟩, rfl⟩
      exact ⟨i, inside, other, mem, rfl⟩
    · rintro ⟨i, inside, other, mem, rfl⟩
      exact ⟨_, ⟨i, inside, other, mem, rfl⟩, rfl⟩
  -- The copies alone have their extremes at one of the two ends.
  have low : IsLeast (repeats a.count a.disp a.stride a.old.trueLb) _ := repeats_isLeast some
  have high : IsGreatest (repeats a.count a.disp a.stride a.old.trueUb) _ :=
    repeats_isGreatest some
  have low_eq : a.lowest - a.old.lb + a.old.trueLb
      = min a.disp (a.disp + a.stride * (a.count - 1)) + a.old.trueLb := by
    unfold Addition.lowest Addition.last
    omega
  have high_eq : a.highest - a.old.ub + a.old.trueUb
      = max a.disp (a.disp + a.stride * (a.count - 1)) + a.old.trueUb := by
    unfold Addition.highest Addition.last
    omega
  rw [low_eq, high_eq]
  refine ⟨⟨?_, ?_⟩, ⟨?_, ?_⟩⟩
  · -- The extreme is reached by the extreme entry in the extreme copy.
    obtain ⟨i, inside, eq⟩ := low.1
    refine ⟨_, (mem _).mpr ⟨i, inside, first, first_mem, rfl⟩, ?_⟩
    rw [eq, first_eq]
    ring
  · -- Any other slot is bounded by its copy and by its entry.
    rintro x ⟨slot, slot_mem, rfl⟩
    obtain ⟨i, inside, other, other_mem, rfl⟩ := (mem slot).mp slot_mem
    have copy := low.2 ⟨i, inside, rfl⟩
    have entry := least ⟨other, other_mem, rfl⟩
    linarith
  · obtain ⟨i, inside, eq⟩ := high.1
    refine ⟨_, (mem _).mpr ⟨i, inside, final, final_mem, rfl⟩, ?_⟩
    rw [eq, final_eq]
    ring
  · rintro x ⟨slot, slot_mem, rfl⟩
    obtain ⟨i, inside, other, other_mem, rfl⟩ := (mem slot).mp slot_mem
    have copy := high.2 ⟨i, inside, rfl⟩
    have entry := most ⟨other, other_mem, rfl⟩
    linarith

end Part

section Sets

variable {adds : List Addition} {a : Addition}

theorem lowersOf_append : lowersOf (adds ++ [a]) = lowersOf adds ∪ a.lowers := by
  ext x
  simp [lowersOf]

theorem uppersOf_append : uppersOf (adds ++ [a]) = uppersOf adds ∪ a.uppers := by
  ext x
  simp [uppersOf]

theorem markedLowers_append :
    markedLowers (adds ++ [a]) = markedLowers adds ∪ (if a.marksLb then a.lowers else ∅) := by
  ext x
  cases marks : a.marksLb <;> simp [markedLowers, marks]

theorem markedUppers_append :
    markedUppers (adds ++ [a]) = markedUppers adds ∪ (if a.marksUb then a.uppers else ∅) := by
  ext x
  cases marks : a.marksUb <;> simp [markedUppers, marks]

/-- Without a marked part there is no marked bound. -/
theorem marked_of_none {marks : Addition → Bool} {bounds : Addition → Set Int}
    (none : adds.any marks = false) : {x | ∃ a ∈ adds, marks a = true ∧ x ∈ bounds a} = ∅ := by
  ext x
  simp only [any_eq_false] at none
  simp only [Set.mem_empty_iff_false, iff_false]
  rintro ⟨a, mem, marks, -⟩
  exact none a mem marks

section Plain

variable (plain : ¬a.IsMarker)

include plain

theorem Addition.lowers_plain : a.lowers = repeats a.count a.disp a.stride a.old.lb := by
  unfold Addition.lowers
  rcases id_of_plain plain with id | ⟨b, id⟩ <;> rw [id]

theorem Addition.uppers_plain : a.uppers = repeats a.count a.disp a.stride a.old.ub := by
  unfold Addition.uppers
  rcases id_of_plain plain with id | ⟨b, id⟩ <;> rw [id]

theorem Addition.marksLb_plain : a.marksLb = a.old.flags.userLb := by
  unfold Addition.marksLb
  rcases id_of_plain plain with id | ⟨b, id⟩ <;> rw [id]

theorem Addition.marksUb_plain : a.marksUb = a.old.flags.userUb := by
  unfold Addition.marksUb
  rcases id_of_plain plain with id | ⟨b, id⟩ <;> rw [id]

theorem Addition.lowest_isLeast (some : 0 < a.count) : IsLeast a.lowers a.lowest := by
  rw [Addition.lowers_plain plain]
  exact repeats_isLeast some

theorem Addition.highest_isGreatest (some : 0 < a.count) : IsGreatest a.uppers a.highest := by
  rw [Addition.uppers_plain plain]
  exact repeats_isGreatest some

end Plain

end Sets

/-- What a type knows about the adds it was made by, the padded upper bound apart. -/
structure Known (arch : Arch) (adds : List Addition) (t : Datatype) : Prop where
  size : t.size = bytes arch (slotsOf adds)
  noData : slotsOf adds = [] → t.trueLb = 2 ^ 63 - 1 ∧ t.trueUb = -2 ^ 63
  data : slotsOf adds ≠ [] →
    IsLeast (starts (slotsOf adds)) t.trueLb ∧ IsGreatest (ends arch (slotsOf adds)) t.trueUb
  align : t.align = largestAlign adds
  userLb : t.flags.userLb = adds.any Addition.marksLb
  userUb : t.flags.userUb = adds.any Addition.marksUb
  lbMarked : adds.any Addition.marksLb = true → IsLeast (markedLowers adds) t.lb
  lbFree : adds.any Addition.marksLb = false →
    (lowersOf adds = ∅ ∧ t.lb = 2 ^ 63 - 1) ∨ IsLeast (lowersOf adds) t.lb
  ubMarked : adds.any Addition.marksUb = true → IsGreatest (markedUppers adds) t.ub

theorem Known.nil (arch : Arch) : Known arch [] .construct where
  size := rfl
  noData := fun _ => ⟨rfl, rfl⟩
  data := fun none => absurd rfl none
  align := rfl
  userLb := rfl
  userUb := rfl
  lbMarked := fun marked => absurd marked Bool.false_ne_true
  lbFree := fun _ => .inl ⟨by simp [lowersOf], rfl⟩
  ubMarked := fun marked => absurd marked Bool.false_ne_true

section Step

variable {arch : Arch} {adds : List Addition} {a : Addition} {t : Datatype}

theorem slotsOf_append : slotsOf (adds ++ [a]) = slotsOf adds ++ a.slots := by
  simp [slotsOf]

theorem largestAlign_append : largestAlign (adds ++ [a]) = max (largestAlign adds) a.old.align := by
  simp [largestAlign]

theorem Addition.slots_of_marker (sound : Sound arch a.old a.entries) (marker : a.IsMarker) :
    a.slots = [] := by
  simp [Addition.slots, (sound.marker marker).1]

theorem starts_append (slots more : List (Basic × Int)) :
    starts (slots ++ more) = starts slots ∪ starts more := by
  ext x
  simp [starts, exists_or]

theorem ends_append (slots more : List (Basic × Int)) :
    ends arch (slots ++ more) = ends arch slots ∪ ends arch more := by
  ext x
  simp [ends, or_and_right, exists_or]

section Plain

variable (known : Known arch adds t) (part : a.Plain t)

include known part

/-- The lower bound after a part that is no marker. -/
theorem Known.lb_plain :
    ((adds ++ [a]).any Addition.marksLb = true →
        IsLeast (markedLowers (adds ++ [a])) (a.apply t).lb) ∧
      ((adds ++ [a]).any Addition.marksLb = false →
        IsLeast (lowersOf (adds ++ [a])) (a.apply t).lb) := by
  have least := Addition.lowest_isLeast part.plain part.some
  have marks := Addition.marksLb_plain part.plain
  rw [part.lb, Addition.joinedLb, known.userLb, markedLowers_append, lowersOf_append, any_append]
  unfold Datatype.joinBound
  -- Four cases: whether a bound was set before, and whether this part sets one.
  cases before : adds.any Addition.marksLb <;> cases now : a.old.flags.userLb <;> simp [marks, now]
  · -- Nobody has set a bound: the least of all counts, the first one against the start value.
    rcases known.lbFree before with ⟨none, start⟩ | before
    · rw [none, Set.empty_union, min_eq_right (by have := part.lowest.2; omega)]
      exact least
    · exact before.union least
  · -- The first bound that is set replaces everything joined before.
    rw [markedLowers, marked_of_none before, Set.empty_union]
    exact least
  · -- A bound that is not set does not count against one that is.
    exact known.lbMarked before
  · exact (known.lbMarked before).union least

/-- The upper bound the user has set, after a part that is no marker. -/
theorem Known.ub_plain (marked : (adds ++ [a]).any Addition.marksUb = true) :
    IsGreatest (markedUppers (adds ++ [a])) (a.apply t).ub := by
  have most := Addition.highest_isGreatest part.plain part.some
  have marks := Addition.marksUb_plain part.plain
  rw [any_append, any_cons, any_nil, Bool.or_false, marks] at marked
  rw [part.ub, known.userUb, marked, Datatype.padUb, Addition.joinedUb,
    known.userUb, markedUppers_append, marks]
  unfold Datatype.joinBound
  -- The same four cases; here somebody has set a bound.
  cases before : adds.any Addition.marksUb <;> cases now : a.old.flags.userUb
  · simp [before, now] at marked
  · rw [markedUppers, marked_of_none before]
    simpa using most
  · simpa using known.ubMarked before
  · simpa using (known.ubMarked before).union most

/-- The bounds of the data after a part that is no marker. -/
theorem Known.data_plain (sound : Sound arch a.old a.entries) :
    (slotsOf (adds ++ [a]) = [] →
        (a.apply t).trueLb = 2 ^ 63 - 1 ∧ (a.apply t).trueUb = -2 ^ 63) ∧
      (slotsOf (adds ++ [a]) ≠ [] →
        IsLeast (starts (slotsOf (adds ++ [a]))) (a.apply t).trueLb ∧
          IsGreatest (ends arch (slotsOf (adds ++ [a]))) (a.apply t).trueUb) := by
  rw [slotsOf_append]
  by_cases empty : a.old.size = 0
  · -- A part without data leaves the data as it was.
    have none : a.entries = [] := bytes_eq_zero.mp (sound.size.symm.trans empty)
    have slots : a.slots = [] := by simp [Addition.slots, none]
    obtain ⟨low, high⟩ := part.trueBounds_of_empty empty
    rw [low, high, slots, append_nil]
    exact ⟨known.noData, known.data⟩
  · -- With data, the part has a first and a last slot of its own.
    have entries : a.entries ≠ [] := fun none =>
      empty (by rw [sound.size, none]; rfl)
    obtain ⟨least, most⟩ := Addition.trueBounds part.some sound entries
    -- The data of one part start before they end, so that the two bounds keep their order.
    have ordered : a.lowest - a.old.lb + a.old.trueLb ≤ a.highest - a.old.ub + a.old.trueUb := by
      obtain ⟨slot, mem, eq⟩ := least.1
      have := most.2 ⟨slot, mem, rfl⟩
      omega
    obtain ⟨low, high⟩ := part.trueBounds empty ordered
    have slots : a.slots ≠ [] := by
      obtain ⟨slot, mem, -⟩ := least.1
      exact ne_nil_of_mem mem
    refine ⟨fun none => absurd (append_eq_nil_iff.mp none).2 slots, fun _ => ?_⟩
    rw [low, high, starts_append, ends_append]
    by_cases first : slotsOf adds = []
    · -- The first data count against the start values.
      have inLow := (part.trueLow empty).2
      have inHigh := (part.trueHigh empty).1
      obtain ⟨startLow, startHigh⟩ := known.noData first
      have noStarts : starts (slotsOf adds) = ∅ := by simp [first, starts]
      have noEnds : ends arch (slotsOf adds) = ∅ := by simp [first, ends]
      rw [noStarts, noEnds, Set.empty_union, Set.empty_union, startHigh,
        min_eq_left (by omega), max_eq_left (by omega)]
      exact ⟨least, most⟩
    · -- Later data are joined with what is known.
      obtain ⟨before, behind⟩ := known.data first
      rw [min_comm, max_comm]
      exact ⟨before.union least, behind.union most⟩

theorem Known.plain (sound : Sound arch a.old a.entries) :
    Known arch (adds ++ [a]) (a.apply t) where
  size := by
    rw [part.size_eq, slotsOf_append, bytes_append, known.size, sound.size,
      Addition.slots, bytes_shift, bytes_copies]
  noData := (known.data_plain part sound).1
  data := (known.data_plain part sound).2
  align := by rw [part.align, largestAlign_append, known.align]
  userLb := by
    rw [part.user.1, known.userLb]
    simp [Addition.marksLb_plain part.plain]
  userUb := by
    rw [part.user.2, known.userUb]
    simp [Addition.marksUb_plain part.plain]
  lbMarked := (known.lb_plain part).1
  lbFree := fun none => .inr ((known.lb_plain part).2 none)
  ubMarked := known.ub_plain part

end Plain

/-- A marker moves a bound and leaves everything else alone. -/
theorem Known.marker (known : Known arch adds t) (some : 0 < a.count) (marker : a.IsMarker)
    (sound : Sound arch a.old a.entries) : Known arch (adds ++ [a]) (a.apply t) := by
  -- A marker brings neither data nor an alignment; only its own bound changes.
  have slots : slotsOf (adds ++ [a]) = slotsOf adds := by
    rw [slotsOf_append, Addition.slots_of_marker sound marker, append_nil]
  have align : largestAlign (adds ++ [a]) = largestAlign adds := by
    rw [largestAlign_append, (sound.marker marker).2, Nat.max_zero]
  rcases marker with id | id
  · -- A lower marker: the first one sets the bound, each further one can only lower it.
    have apply_eq : a.apply t = t.addLb a.disp := by
      simp [Addition.apply, Datatype.add, some.ne', id]
    have marksLb : a.marksLb = true := by simp [Addition.marksLb, id]
    have marksUb : a.marksUb = false := by simp [Addition.marksUb, id]
    have lowers : a.lowers = {a.disp} := by simp [Addition.lowers, id]
    rw [apply_eq]
    refine ⟨slots ▸ known.size, slots ▸ known.noData, slots ▸ known.data, align ▸ known.align,
      ?_, ?_, ?_, ?_, ?_⟩
    · simp [Datatype.addLb, marksLb]
    · simp [Datatype.addLb, known.userUb, marksUb]
    · intro _
      rw [markedLowers_append, marksLb, if_pos rfl, lowers]
      unfold Datatype.addLb
      rw [known.userLb]
      split
      · rename_i marked
        exact (known.lbMarked marked).union isLeast_singleton
      · rename_i none
        rw [markedLowers, marked_of_none (by simpa using none), Set.empty_union]
        exact isLeast_singleton
    · intro none
      simp [marksLb] at none
    · intro marked
      rw [markedUppers_append, marksUb, if_neg Bool.false_ne_true, Set.union_empty]
      exact known.ubMarked (by simpa [marksUb] using marked)
  · -- An upper marker, the other way round.
    have apply_eq : a.apply t = t.addUb a.disp := by
      simp [Addition.apply, Datatype.add, some.ne', id]
    have marksLb : a.marksLb = false := by simp [Addition.marksLb, id]
    have marksUb : a.marksUb = true := by simp [Addition.marksUb, id]
    have lowers : a.lowers = ∅ := by simp [Addition.lowers, id]
    have uppers : a.uppers = {a.disp} := by simp [Addition.uppers, id]
    rw [apply_eq]
    refine ⟨slots ▸ known.size, slots ▸ known.noData, slots ▸ known.data, align ▸ known.align,
      ?_, ?_, ?_, ?_, ?_⟩
    · simp [Datatype.addUb, known.userLb, marksLb]
    · simp [Datatype.addUb, marksUb]
    · intro marked
      rw [markedLowers_append, marksLb, if_neg Bool.false_ne_true, Set.union_empty]
      exact known.lbMarked (by simpa [marksLb] using marked)
    · intro none
      rw [lowersOf_append, lowers, Set.union_empty]
      exact known.lbFree (by simpa [marksLb] using none)
    · intro _
      rw [markedUppers_append, marksUb, if_pos rfl, uppers]
      unfold Datatype.addUb
      rw [known.userUb]
      split
      · rename_i marked
        exact (known.ubMarked marked).union isGreatest_singleton
      · rename_i none
        rw [markedUppers, marked_of_none (by simpa using none), Set.empty_union]
        exact isGreatest_singleton

end Step

end EduMpi.Ddt
