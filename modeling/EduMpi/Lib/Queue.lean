import Mathlib.Data.List.Basic
import Mathlib.Data.List.Nodup

/-! A queue without repetitions: who leads it, who comes last, and who stands behind whom. -/

namespace Queue

open List

variable {α : Type*}

/-- The second element stands directly behind the first. -/
def Behind : List α → α → α → Prop
  | x :: y :: rest, a, b => (a = x ∧ b = y) ∨ Behind (y :: rest) a b
  | _, _, _ => False

variable {queue rest : List α} {a b x y : α}

@[simp] theorem behind_nil : ¬ Behind [] a b := fun behind => behind

@[simp] theorem behind_singleton : ¬ Behind [x] a b := fun behind => behind

theorem behind_cons :
    Behind (x :: queue) a b ↔ (a = x ∧ queue.head? = some b) ∨ Behind queue a b := by
  cases queue with
  | nil => simp
  | cons y rest =>
    change (a = x ∧ b = y) ∨ Behind (y :: rest) a b ↔ _
    rw [List.head?_cons, Option.some.injEq, eq_comm (a := y)]

section Behind

variable (behind : Behind queue a b)

include behind

theorem Behind.mem_left : a ∈ queue := by
  induction queue with
  | nil => exact behind.elim
  | cons x rest ih =>
    rcases behind_cons.mp behind with ⟨rfl, _⟩ | later
    · exact mem_cons_self
    · exact mem_cons_of_mem _ (ih later)

theorem Behind.mem_right : b ∈ queue := by
  induction queue with
  | nil => exact behind.elim
  | cons x rest ih =>
    rcases behind_cons.mp behind with ⟨_, first⟩ | later
    · exact mem_cons_of_mem _ (mem_of_mem_head? first)
    · exact mem_cons_of_mem _ (ih later)

/-- Whoever stands behind another does not lead the queue. -/
theorem Behind.not_head (distinct : queue.Nodup) : queue.head? ≠ some b := by
  cases queue with
  | nil => exact behind.elim
  | cons x rest =>
    intro first
    rw [List.head?_cons, Option.some.injEq] at first
    subst first
    rcases behind_cons.mp behind with ⟨_, first⟩ | later
    · exact (nodup_cons.mp distinct).1 (mem_of_mem_head? first)
    · exact (nodup_cons.mp distinct).1 later.mem_right

/-- Nobody stands behind itself. -/
theorem Behind.ne (distinct : queue.Nodup) : a ≠ b := by
  induction queue with
  | nil => exact behind.elim
  | cons x rest ih =>
    have remaining := nodup_cons.mp distinct
    rcases behind_cons.mp behind with ⟨rfl, first⟩ | later
    · exact fun same => remaining.1 (same ▸ mem_of_mem_head? first)
    · exact ih later remaining.2

/-- Only one stands directly behind another. -/
theorem Behind.right_unique (other : Behind queue a y) (distinct : queue.Nodup) : b = y := by
  induction queue with
  | nil => exact behind.elim
  | cons x rest ih =>
    have fresh := (nodup_cons.mp distinct).1
    rcases behind_cons.mp behind with ⟨rfl, first⟩ | later
    · rcases behind_cons.mp other with ⟨_, second⟩ | late
      · exact Option.some.inj (first.symm.trans second)
      · exact absurd late.mem_left fresh
    · rcases behind_cons.mp other with ⟨rfl, _⟩ | late
      · exact absurd later.mem_left fresh
      · exact ih later late (nodup_cons.mp distinct).2

/-- Each stands directly behind one only. -/
theorem Behind.left_unique (other : Behind queue x b) (distinct : queue.Nodup) : a = x := by
  induction queue with
  | nil => exact behind.elim
  | cons y rest ih =>
    have remaining := (nodup_cons.mp distinct).2
    rcases behind_cons.mp behind with ⟨rfl, first⟩ | later
    · rcases behind_cons.mp other with ⟨rfl, _⟩ | late
      · rfl
      · exact absurd first (late.not_head remaining)
    · rcases behind_cons.mp other with ⟨_, first⟩ | late
      · exact absurd first (later.not_head remaining)
      · exact ih later late remaining

end Behind

/-- Whoever does not lead the queue stands behind another. -/
theorem exists_behind (member : b ∈ queue) (follows : queue.head? ≠ some b) :
    ∃ a, Behind queue a b := by
  induction queue with
  | nil => exact absurd member not_mem_nil
  | cons x rest ih =>
    rcases mem_cons.mp member with rfl | later
    · exact absurd rfl follows
    · by_cases first : rest.head? = some b
      · exact ⟨x, behind_cons.mpr (.inl ⟨rfl, first⟩)⟩
      · obtain ⟨a, behind⟩ := ih later first
        exact ⟨a, behind_cons.mpr (.inr behind)⟩

/-- A new one at the end stands behind the one that was last. -/
theorem behind_concat :
    Behind (queue ++ [x]) a b ↔ Behind queue a b ∨ (queue.getLast? = some a ∧ b = x) := by
  induction queue with
  | nil => simp
  | cons y rest ih =>
    rw [cons_append, behind_cons, behind_cons, ih]
    cases rest with
    | nil => simp [eq_comm]
    | cons z more => simp [or_assoc]

theorem Behind.not_last (behind : Behind queue a b) (distinct : queue.Nodup) :
    queue.getLast? ≠ some a := by
  induction queue with
  | nil => exact behind.elim
  | cons x rest ih =>
    have remaining := nodup_cons.mp distinct
    cases rest with
    | nil => exact (behind_singleton behind).elim
    | cons y more =>
      rcases behind_cons.mp behind with ⟨rfl, _⟩ | later
      · exact fun last => remaining.1 (mem_of_getLast? last)
      · exact ih later remaining.2

end Queue
