import CodeLayout.Tree.Kind

/-!
# Syntax trees

A leaf stands for a token by its index and weighs the token's width; an inner node has a kind, its
children and their joint width.  The leaves of a tree, read from left to right, are the tokens that
it covers.
-/

namespace CodeLayout

/-- A syntax tree. -/
inductive Tree where
  /-- A token: its index and its width. -/
  | leaf (index : Nat) (width : Nat)
  /-- An inner node: its kind, the joint width of its children, and the children. -/
  | node (kind : NodeKind) (width : Nat) (children : List Tree)
deriving Inhabited, Repr

namespace Tree

/-- The width of a tree as it is recorded. -/
def width : Tree → Nat
  | leaf _ w => w
  | node _ w _ => w

/-- The joint width of several trees. -/
def totalWidth : List Tree → Nat
  | [] => 0
  | t :: ts => t.width + totalWidth ts

/-- An inner node that records the joint width of its children. -/
def branch (kind : NodeKind) (children : List Tree) : Tree :=
  node kind (totalWidth children) children

/-- The kind of an inner node. -/
def kind? : Tree → Option NodeKind
  | leaf .. => none
  | node k _ _ => some k

/-- Is the tree an inner node of the kind? -/
def isKind (t : Tree) (k : NodeKind) : Bool := t.kind? == some k

/-- Is the tree an inner node? -/
def isNode (t : Tree) : Bool := t.kind?.isSome

/-- The children of an inner node; a leaf has none. -/
def children : Tree → List Tree
  | leaf .. => []
  | node _ _ cs => cs

/-- The children that are inner nodes. -/
def childNodes (t : Tree) : List Tree := t.children.filter isNode

/-- The first child that is an inner node of the kind. -/
def findChild? (t : Tree) (k : NodeKind) : Option Tree := t.children.find? (·.isKind k)

/-- The token index of a leaf. -/
def leafIndex? : Tree → Option Nat
  | leaf i _ => some i
  | node .. => none

mutual

/-- The token indices that a tree covers, from left to right. -/
def leaves : Tree → List Nat
  | leaf i _ => [i]
  | node _ _ cs => leavesAll cs

/-- The token indices that several trees cover, from left to right. -/
def leavesAll : List Tree → List Nat
  | [] => []
  | t :: ts => leaves t ++ leavesAll ts

end

mutual

/-- The first token that a tree covers. -/
def first? : Tree → Option Nat
  | leaf i _ => some i
  | node _ _ cs => firstAll? cs

/-- The first token that several trees cover. -/
def firstAll? : List Tree → Option Nat
  | [] => none
  | t :: ts => first? t <|> firstAll? ts

end

mutual

/-- The last token that a tree covers. -/
def last? : Tree → Option Nat
  | leaf i _ => some i
  | node _ _ cs => lastAll? cs

/-- The last token that several trees cover. -/
def lastAll? : List Tree → Option Nat
  | [] => none
  | t :: ts => lastAll? ts <|> last? t

end

mutual

/-- The number of inner nodes on the longest path down a tree. -/
def height : Tree → Nat
  | leaf .. => 0
  | node _ _ cs => heightAll cs + 1

/-- The greatest height of several trees. -/
def heightAll : List Tree → Nat
  | [] => 0
  | t :: ts => max (height t) (heightAll ts)

end

mutual

/-- The tree with every leaf replaced by the one that `f` answers for its index; the widths of the
inner nodes follow. -/
def relabel (f : Nat → Nat × Nat) : Tree → Tree
  | leaf i _ => leaf (f i).1 (f i).2
  | node k _ cs => branch k (relabelAll f cs)

/-- Several trees with their leaves replaced. -/
def relabelAll (f : Nat → Nat × Nat) : List Tree → List Tree
  | [] => []
  | t :: ts => relabel f t :: relabelAll f ts

end

end Tree

end CodeLayout
