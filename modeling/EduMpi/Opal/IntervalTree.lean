import Mathlib.Data.List.Basic

/-! The interval tree as its readers see it: the lookup, the traversal and the checker. -/

namespace EduMpi.Opal.IntervalTree

inductive Color where
  | red | black
deriving DecidableEq, Repr

/-- An interval with its data, where zero is the null pointer. -/
structure Entry where
  low : Nat
  high : Nat
  data : Nat
  /-- Other bounds are refused by an insertion. -/
  ordered : low ≤ high
deriving DecidableEq, Repr

/-- A subtree; `nill` is the sentinel below the last nodes. -/
inductive Tree where
  | nill
  | node (color : Color) (entry : Entry) (left right : Tree)
deriving DecidableEq, Repr

/-- The sentinel is black. -/
def Tree.color : Tree → Color
  | .nill => .black
  | .node color _ _ _ => color

section Traverse

variable {σ : Type} (low high : Nat) (partialOk : Bool)

/-- The action returns a code and changes the context; zero is success. -/
def inorderTraversal (action : Nat → Nat → Nat → σ → Int × σ) : Tree → σ → Int × σ
  | .nill, ctx => (0, ctx)
  | .node _ node left right, ctx =>
    let (rc, ctx) := inorderTraversal action left ctx
    if rc ≠ 0 then (rc, ctx)
    else if (¬ partialOk ∧ node.low ≤ low ∧ high ≤ node.high)
        ∨ (partialOk ∧ ((node.low ≤ low ∧ low ≤ node.high) ∨ (node.low ≤ high ∧ high ≤ node.high)
          ∨ (low ≤ node.low ∧ node.low ≤ high) ∨ (high ≤ node.high ∧ node.high ≤ high))) then
      let (rc, ctx) := action node.low node.high node.data ctx
      if rc ≠ 0 then (rc, ctx) else inorderTraversal action right ctx
    else inorderTraversal action right ctx

def errBadParam : Int := -5

/-- A missing action is refused. -/
def traverse (tree : Tree) (action : Option (Nat → Nat → Nat → σ → Int × σ)) (ctx : σ) : Int × σ :=
  match action with
  | none => (errBadParam, ctx)
  | some action => inorderTraversal low high partialOk action tree ctx

end Traverse

def verifyNode (blackDepth : Nat) : Tree → Nat → Bool
  | .nill, _ => true
  | .node color _ left right, currentBlackDepth =>
    if color = .red ∧ (left.color ≠ .black ∨ right.color ≠ .black) then false
    else
      let currentBlackDepth := if color = .black then currentBlackDepth + 1 else currentBlackDepth
      if left = .nill ∧ right = .nill then blackDepth = currentBlackDepth
      else verifyNode blackDepth left currentBlackDepth
        || verifyNode blackDepth right currentBlackDepth

/-- The number of black nodes on the way that always goes left. -/
def blackDepth : Tree → Nat → Nat
  | .nill, depth => depth
  | .node color _ left _, depth => blackDepth left (if color = .black then depth + 1 else depth)

def verify (tree : Tree) : Bool :=
  if tree.color ≠ .black then false else verifyNode (blackDepth tree 0) tree 0

end EduMpi.Opal.IntervalTree
