import CodeLayout.Tree.Basic

/-!
# The outline of a tree

The inner nodes of a tree are numbered in the order in which they are met from the root down and
from left to right.  The outline lists them with the number of the node around each; the owner of a
token is the node that has it as a child.
-/

namespace CodeLayout.Tree

mutual

/-- The number of inner nodes of a tree. -/
def nodeCount : Tree → Nat
  | leaf .. => 0
  | node _ _ cs => nodeCountAll cs + 1

/-- The number of inner nodes of several trees. -/
def nodeCountAll : List Tree → Nat
  | [] => 0
  | t :: ts => nodeCount t + nodeCountAll ts

end

/-- An inner node of an outline. -/
structure OutlineNode where
  kind : NodeKind
  /-- The number of the node around it. -/
  parent : Option Nat
  /-- The first and the last token that it covers. -/
  tokens : Option (Nat × Nat)
  width : Nat
deriving DecidableEq, Repr

/-- The first and the last token that a tree covers. -/
def range? (t : Tree) : Option (Nat × Nat) := do
  return (← t.first?, ← t.last?)

mutual

/-- The inner nodes of a tree whose root has the given number. -/
def outlineFrom (number : Nat) (parent : Option Nat) : Tree → List OutlineNode
  | leaf .. => []
  | node k w cs =>
    ⟨k, parent, range? (node k w cs), w⟩ :: outlineAll (number + 1) number cs

/-- The inner nodes of the children of a node, the first of which has the given number. -/
def outlineAll (number parent : Nat) : List Tree → List OutlineNode
  | [] => []
  | t :: ts =>
    outlineFrom number (some parent) t ++ outlineAll (number + nodeCount t) parent ts

end

/-- The inner nodes of a tree. -/
def outline (t : Tree) : List OutlineNode := outlineFrom 0 none t

mutual

/-- The tokens of a tree whose root has the given number, each with its owner. -/
def ownersFrom (number : Nat) : Tree → List (Nat × Nat)
  | leaf .. => []
  | node _ _ cs => ownersAll (number + 1) number cs

/-- The tokens of the children of a node, the first of which has the given number. -/
def ownersAll (number parent : Nat) : List Tree → List (Nat × Nat)
  | [] => []
  | leaf i _ :: ts => (i, parent) :: ownersAll number parent ts
  | node k w cs :: ts =>
    ownersFrom number (node k w cs) ++
      ownersAll (number + nodeCount (node k w cs)) parent ts

end

/-- The number of the node that has the token as a child. -/
def owner? (t : Tree) (index : Nat) : Option Nat := (ownersFrom 0 t).lookup index

end CodeLayout.Tree
