import EduMpi.Ddt.TypeMap

/-! The byte offsets a type map stands for, in the order in which they are packed. -/

namespace EduMpi.Ddt

open Ints Strided

/-- A byte of the user's buffer, as a place behind the base address. -/
abbrev Byte := Unit × Offset

/-- So many bytes in a row. -/
def line (n : Nat) : List Byte := copies n 1 [((), 0)]

/-- The bytes of one element of a type map. -/
def slotBytes (arch : Arch) (s : Slot) : List Byte := shift s.2 (line (arch.size s.1))

/-- The bytes of a type map. -/
def bytesOf (arch : Arch) (m : List Slot) : List Byte := m.flatMap (slotBytes arch)

/-- The byte offsets of a description, in pack order. -/
def byteOffsets (arch : Arch) (desc : List Entry) : List Offset :=
  (bytesOf arch (expand arch desc)).map Prod.snd

section Line

variable {n k : Nat} {x : Offset}

@[simp]
theorem line_zero : line 0 = [] := rfl

@[simp]
theorem length_line : (line n).length = n := by
  simp [line]

theorem line_add : line (n + k) = line n ++ shift (n : Offset) (line k) := by
  simpa [line] using copies_add (e := (1 : Offset)) (m := [((), 0)]) (n := n) (k := k)

/-- Lines one behind the other are one line. -/
theorem copies_line (adjacent : x = (k : Offset)) : copies n x (line k) = line (n * k) := by
  subst adjacent
  simpa [line] using copies_mul (n := n) (k := k) (e := (1 : Offset)) (m := [((), 0)])

end Line

section Bytes

variable {arch : Arch} {m l : List Slot} {d e : Offset} {n : Nat}

@[simp]
theorem bytesOf_nil : bytesOf arch [] = [] := rfl

theorem bytesOf_cons (s : Slot) : bytesOf arch (s :: m) = slotBytes arch s ++ bytesOf arch m :=
  List.flatMap_cons

@[simp]
theorem bytesOf_append : bytesOf arch (m ++ l) = bytesOf arch m ++ bytesOf arch l := by
  simp [bytesOf]

@[simp]
theorem bytesOf_shift : bytesOf arch (shift d m) = shift d (bytesOf arch m) := by
  induction m with
  | nil => rfl
  | cons s m ih =>
    -- A moved element has its bytes moved.
    rw [shift_cons, bytesOf_cons, ih, bytesOf_cons]
    simp [slotBytes]

@[simp]
theorem bytesOf_copies : bytesOf arch (copies n e m) = copies n e (bytesOf arch m) := by
  induction n with
  | zero => rfl
  | succ n ih => rw [copies_succ, bytesOf_append, ih, bytesOf_shift, ← copies_succ]

/-- Every element has a byte. -/
theorem bytesOf_eq_nil : bytesOf arch m = [] ↔ m = [] := by
  cases m with
  | nil => simp
  | cons s m =>
    have positive := arch.size_pos s.1
    have filled : slotBytes arch s ≠ [] := by
      rw [← List.length_pos_iff]
      simpa [slotBytes] using positive
    simp [bytesOf_cons, filled]

end Bytes

section Elem

variable {arch : Arch} {e : Elem}

/-- The bytes of one block of an element. -/
def Elem.block (arch : Arch) (e : Elem) : Nat := e.blocklen * arch.size e.type

/-- The bytes of an element: only where its blocks are and how long they are counts. -/
def Elem.bytes (arch : Arch) (e : Elem) : List Byte :=
  shift (e.disp : Offset) (copies e.count (e.extent : Offset) (line (e.block arch)))

@[simp]
theorem bytesOf_slots : bytesOf arch (e.slots arch) = e.bytes arch := by
  -- The elements of a block are adjacent.
  have block : bytesOf arch (copies e.blocklen (arch.size e.type : Offset) [(e.type, 0)])
      = line (e.block arch) := by
    simpa [bytesOf_cons, slotBytes, Elem.block] using
      copies_line (n := e.blocklen) (x := arch.size e.type) rfl
  rw [Elem.slots, bytesOf_shift, bytesOf_copies, block, Elem.bytes]

theorem Elem.length_bytes : (e.bytes arch).length = e.count * e.block arch := by
  simp [Elem.bytes]

theorem Elem.bytes_of_count (none : e.count = 0) : e.bytes arch = [] := by
  simp [Elem.bytes, none]

end Elem

end EduMpi.Ddt
