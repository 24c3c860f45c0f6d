import EduMpi.Opal.IntervalTree

/-! What the readers of the interval tree find, visit and accept. -/

namespace EduMpi.Opal.IntervalTree

/-- The stored intervals, from left to right. -/
def Tree.entries : Tree → List Entry
  | .nill => []
  | .node _ entry left right => left.entries ++ entry :: right.entries

section Lookup

variable {low high : Nat}

/-- The interval contains the bounds. -/
def Entry.Covers (low high : Nat) (entry : Entry) : Prop := entry.low ≤ low ∧ high ≤ entry.high

instance : DecidablePred (Entry.Covers low high) := fun _ => inferInstanceAs (Decidable (_ ∧ _))

/-- The order that the insertions keep: by the low bound, of these the longer interval first. -/
def Entry.Before (a b : Entry) : Prop :=
  a.low < b.low ∨ a.low = b.low ∧ (b.high < a.high ∨ a.high = b.high ∧ a.data < b.data)

instance (a : Entry) : DecidablePred a.Before := fun _ => inferInstanceAs (Decidable (_ ∨ _))

/-- A tree without left children. -/
def chain : List Entry → Tree
  | [] => .nill
  | entry :: rest => .node .black entry .nill (chain rest)

end Lookup

section Traverse

variable {σ : Type} {low high : Nat} {partialOk : Bool} {action : Nat → Nat → Nat → σ → Int × σ}

/-- Calls the action for one interval after the other, until it fails. -/
def visit (action : Nat → Nat → Nat → σ → Int × σ) : List Entry → σ → Int × σ
  | [], ctx => (0, ctx)
  | entry :: rest, ctx =>
    let (rc, ctx) := action entry.low entry.high entry.data ctx
    if rc ≠ 0 then (rc, ctx) else visit action rest ctx

theorem visit_append (before after : List Entry) (ctx : σ) :
    visit action (before ++ after) ctx =
      let (rc, ctx) := visit action before ctx
      if rc ≠ 0 then (rc, ctx) else visit action after ctx := by
  induction before generalizing ctx with
  | nil => rfl
  | cons entry rest ih =>
    simp only [List.cons_append, visit, ih]
    split <;> simp_all

/-- The interval has a point in common with the bounds, or contains them. -/
def Entry.matched (low high : Nat) (partialOk : Bool) (entry : Entry) : Bool :=
  if partialOk then entry.low ≤ high ∧ low ≤ entry.high else entry.low ≤ low ∧ high ≤ entry.high

/--
A traversal calls the action once for each interval that matches, in the order of the tree, and stops where it fails.

This holds of trees of any shape.
-/
theorem traverse_visits_matches (query : low ≤ high) (tree : Tree) (ctx : σ) :
    traverse low high partialOk tree (some action) ctx
      = visit action (tree.entries.filter (Entry.matched low high partialOk)) ctx := by
  unfold traverse
  dsimp only
  induction tree generalizing ctx with
  | nill => rfl
  | node color entry left right ihLeft ihRight =>
    -- The four cases of the test are those in which two intervals with ordered bounds meet.
    have ordered := entry.ordered
    have test : (¬ partialOk ∧ entry.low ≤ low ∧ high ≤ entry.high)
        ∨ (partialOk ∧ ((entry.low ≤ low ∧ low ≤ entry.high) ∨ (entry.low ≤ high ∧ high ≤ entry.high)
          ∨ (low ≤ entry.low ∧ entry.low ≤ high) ∨ (high ≤ entry.high ∧ entry.high ≤ high)))
        ↔ entry.matched low high partialOk := by
      unfold Entry.matched
      cases partialOk <;> simp
      omega
    rw [inorderTraversal, Tree.entries, List.filter_append, visit_append, ihLeft]
    simp only [test, ihRight]
    split
    · rfl
    by_cases matched : entry.matched low high partialOk <;> simp [matched, visit]

/-- One interval of two meets the bounds. -/
theorem traverse_visits_first : ∃ tree : Tree, tree.entries.length = 2
    ∧ traverse 4 9 true tree (some fun low _ _ ctx => (0, low :: ctx)) [] = (0, [3]) := by
  refine ⟨.node .black ⟨3, 5, 1, by decide⟩ .nill (.node .red ⟨10, 12, 2, by decide⟩ .nill .nill),
    rfl, ?_⟩
  rw [traverse_visits_matches (by decide)]
  rfl

end Traverse

section Checker

/-- No red node has a red child. -/
def Tree.NoRedRed : Tree → Prop
  | .nill => True
  | .node color _ left right =>
    (color = .red → left.color = .black ∧ right.color = .black) ∧ left.NoRedRed ∧ right.NoRedRed

/-- The numbers of black nodes on the paths from the root to the sentinel. -/
def Tree.blacks : Tree → List Nat
  | .nill => [0]
  | .node color _ left right =>
    (left.blacks ++ right.blacks).map (· + if color = .black then 1 else 0)

/-- A tree as the balancing keeps it. -/
structure Tree.Valid (tree : Tree) : Prop where
  root : tree.color = .black
  red : tree.NoRedRed
  black : ∀ a ∈ tree.blacks, ∀ b ∈ tree.blacks, a = b

/-- A way from the root to a node with a missing child. -/
structure Branch where
  /-- A red node on it has a red child. -/
  redRed : Bool
  blacks : Nat
  /-- Both children of its last node are missing. -/
  leaf : Bool

/-- The way with one more node in front. -/
def Branch.below (redRed : Bool) (black : Nat) (b : Branch) : Branch :=
  ⟨redRed || b.redRed, black + b.blacks, b.leaf⟩

/-- The ways of a tree, from left to right. -/
def Tree.branches : Tree → List Branch
  | .nill => []
  | .node color _ left right =>
    let redRed : Bool := color = .red ∧ (left.color ≠ .black ∨ right.color ≠ .black)
    let black := if color = .black then 1 else 0
    left.branches.map (.below redRed black)
      ++ (if left = .nill ∨ right = .nill then [⟨redRed, black, left = .nill ∧ right = .nill⟩] else [])
      ++ right.branches.map (.below redRed black)

/-- The number of black nodes on the leftmost way. -/
def Tree.leftmost (tree : Tree) : Nat := (tree.branches.head?.map Branch.blacks).getD 0

/-- The way has a red node with a red child, or other black nodes than the leftmost one. -/
def Branch.Faulty (depth : Nat) (b : Branch) : Prop := b.redRed = true ∨ b.blacks ≠ depth

/-- Only a way to a leaf has its black nodes compared. -/
def Branch.Seen (depth : Nat) (b : Branch) : Prop :=
  b.redRed = true ∨ b.leaf = true ∧ b.blacks ≠ depth

/-- The checker is content with one branch that has no red child of a red node, and the right depth
if it ends in a leaf. -/
theorem verifyNode_eq (depth : Nat) (tree : Tree) (current : Nat) :
    verifyNode depth tree current = (tree = .nill || tree.branches.any fun b =>
      !b.redRed && (!b.leaf || depth = current + b.blacks)) := by
  induction tree generalizing current with
  | nill => rfl
  | node color entry left right ihLeft ihRight =>
    have next : (if color = .black then current + 1 else current)
        = current + if color = .black then 1 else 0 := by
      split <;> rfl
    simp only [verifyNode, Tree.branches, Branch.below, ihLeft, ihRight, next, List.any_append,
      List.any_map, Function.comp_def, Nat.add_assoc]
    by_cases redRed : color = .red ∧ (left.color ≠ .black ∨ right.color ≠ .black)
    · by_cases ends : left = .nill ∨ right = .nill <;> simp [redRed, ends]
    simp only [if_neg redRed, decide_eq_false redRed]
    -- A missing child of a node that is no leaf passes for a branch.
    by_cases noLeft : left = .nill <;> by_cases noRight : right = .nill
    all_goals simp [noLeft, noRight, Tree.branches]
    rfl

theorem Tree.branches_ne_nil {tree : Tree} (some : tree ≠ .nill) : tree.branches ≠ [] := by
  induction tree with
  | nill => exact absurd rfl some
  | node color entry left right ihLeft ihRight =>
    by_cases missing : left = .nill
    · simp [branches, missing]
    · simp [branches, ihLeft missing]

/-- The checker's depth is that of the leftmost way. -/
theorem blackDepth_eq (tree : Tree) (depth : Nat) :
    blackDepth tree depth = depth + tree.leftmost := by
  induction tree generalizing depth with
  | nill => rfl
  | node color entry left right ihLeft ihRight =>
    rw [blackDepth, ihLeft, Tree.leftmost, Tree.leftmost, Tree.branches]
    cases ways : left.branches with
    | nil =>
      have missing : left = .nill := by_contra fun some => Tree.branches_ne_nil some ways
      simp only [missing, true_or, if_true, List.map_nil, List.nil_append, List.cons_append,
        List.head?_cons, List.head?_nil, Option.map_some, Option.map_none, Option.getD_some,
        Option.getD_none]
      split <;> omega
    | cons way rest =>
      simp only [List.map_cons, List.cons_append, List.head?_cons, Option.map_some,
        Option.getD_some, Branch.below]
      split <;> omega

/-- Every node is on a way. -/
theorem Tree.noRedRed_iff (tree : Tree) :
    tree.NoRedRed ↔ ∀ b ∈ tree.branches, b.redRed = false := by
  induction tree with
  | nill => simp [NoRedRed, branches]
  | node color entry left right ihLeft ihRight =>
    by_cases redRed : color = .red ∧ (left.color ≠ .black ∨ right.color ≠ .black)
    · -- Both sides fail: the fault is on every way.
      refine iff_of_false (fun valid => ?_) fun none => ?_
      · have := valid.1 redRed.1
        simp_all
      · obtain ⟨way, member⟩ := List.exists_mem_of_ne_nil _
          (@branches_ne_nil (.node color entry left right) nofun)
        have clean := none way member
        simp only [branches, redRed, Branch.below, List.mem_append, List.mem_map] at member
        rcases member with (⟨b, -, rfl⟩ | own) | ⟨b, -, rfl⟩
        · cases clean
        · split at own <;> simp_all
        · cases clean
    · have black : color = .red → left.color = .black ∧ right.color = .black := by
        intro red
        simp_all
      simp only [NoRedRed, ihLeft, ihRight, branches, decide_eq_false redRed, Branch.below,
        Bool.false_or, List.forall_mem_append, List.forall_mem_map]
      split <;> simp_all

/-- The paths to the sentinel are the ways with a missing child behind them. -/
theorem Tree.mem_blacks {tree : Tree} (some : tree ≠ .nill) (n : Nat) :
    n ∈ tree.blacks ↔ ∃ b ∈ tree.branches, b.blacks = n := by
  induction tree generalizing n with
  | nill => exact absurd rfl some
  | node color entry left right ihLeft ihRight =>
    have below (sub : Tree) (black : Nat)
        (ih : sub ≠ .nill → ∀ n, n ∈ sub.blacks ↔ ∃ b ∈ sub.branches, b.blacks = n) :
        (∃ m ∈ sub.blacks, m + black = n)
          ↔ sub = .nill ∧ black = n ∨ ∃ b ∈ sub.branches, black + b.blacks = n := by
      by_cases none : sub = .nill
      · simp [none, blacks, branches]
      · simp [none, ih none, Nat.add_comm]
    simp only [blacks, branches, List.mem_map, List.mem_append, or_and_right, exists_or,
      below left _ ihLeft, below right _ ihRight, Branch.below, exists_exists_and_eq_and]
    generalize (if color = .black then 1 else 0) = black
    clear ihLeft ihRight below
    split
    · simp only [List.mem_singleton, exists_eq_left]
      grind
    · grind

/-- A tree with a black root is valid if no way has a fault. -/
theorem Tree.valid_iff {tree : Tree} (black : tree.color = .black) :
    tree.Valid ↔ ∀ b ∈ tree.branches, ¬ b.Faulty tree.leftmost := by
  by_cases none : tree = .nill
  · subst none
    exact iff_of_true ⟨rfl, trivial, by simp [blacks]⟩ (by simp [branches])
  constructor
  · intro valid b member faulty
    rcases faulty with redRed | other
    · simp [(noRedRed_iff tree).mp valid.red b member] at redRed
    · -- The leftmost way is one of the paths.
      obtain ⟨first, rest, ways⟩ := List.exists_cons_of_ne_nil (branches_ne_nil none)
      have depth : tree.leftmost = first.blacks := by simp [leftmost, ways]
      refine other (valid.black _ ((mem_blacks none _).mpr ⟨b, member, rfl⟩) _ ?_)
      exact (mem_blacks none _).mpr ⟨first, by simp [ways], depth.symm⟩
  · intro clean
    have depth (n : Nat) (path : n ∈ tree.blacks) : n = tree.leftmost := by
      obtain ⟨b, member, rfl⟩ := (mem_blacks none n).mp path
      exact not_not.mp (not_or.mp (clean b member)).2
    exact ⟨black, (noRedRed_iff tree).mpr fun b member => by simpa using (not_or.mp (clean b member)).1,
      fun a pathA b pathB => (depth a pathA).trans (depth b pathB).symm⟩

/--
The checker accepts a tree only if it is valid exactly under a condition.

Its root is red, or a fault on one way comes with one on every way that the checker can see.
-/
theorem verify_sound_iff (tree : Tree) : (verify tree = true → tree.Valid)
    ↔ tree.color = .red ∨ ((∃ b ∈ tree.branches, b.Faulty tree.leftmost) →
      ∀ b ∈ tree.branches, b.Seen tree.leftmost) := by
  unfold verify
  cases color : tree.color with
  | red => simp
  | black =>
    rw [verifyNode_eq, blackDepth_eq, Tree.valid_iff color]
    by_cases none : tree = .nill
    · simp [none, Tree.branches]
    have content (b : Branch) :
        (!b.redRed && (!b.leaf || tree.leftmost = b.blacks)) = true ↔ ¬ b.Seen tree.leftmost := by
      unfold Branch.Seen
      cases b.redRed <;> cases b.leaf <;> simp [eq_comm]
    simp only [none, ne_eq, not_true_eq_false, if_false, decide_false, Bool.false_or, Nat.zero_add,
      List.any_eq_true, reduceCtorEq, false_or, content]
    -- One way without a visible fault hides the faults of all others.
    constructor
    · rintro sound ⟨b, member, faulty⟩ c inside
      by_contra unseen
      exact sound ⟨c, inside, unseen⟩ b member faulty
    · rintro visible ⟨c, inside, unseen⟩ b member faulty
      exact unseen (visible ⟨b, member, faulty⟩ c inside)

/-- The missing left child of the root is enough, although the other paths have two black nodes. -/
theorem unbalanced_tree_accepted : ∃ tree : Tree, verify tree = true ∧ ¬ tree.Valid := by
  let entry : Entry := ⟨0, 0, 1, Nat.le_refl 0⟩
  refine ⟨.node .black entry .nill (.node .black entry .nill .nill), by decide, fun valid => ?_⟩
  have := valid.black 1 (by decide) 2 (by decide)
  contradiction

end Checker

end EduMpi.Opal.IntervalTree
