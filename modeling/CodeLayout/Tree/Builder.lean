import CodeLayout.Tree.Basic

/-!
# Building a tree from left to right

A builder holds a stack of open nodes, the innermost first, each with the children that it has so
far.  A marker is a position among the children of the innermost open node; opening a node at a
marker moves the children after the marker into the new node.  No operation changes the order of the
leaves.
-/

namespace CodeLayout.Tree

/-- A node that is still open. -/
structure Frame where
  kind : NodeKind
  children : Array Tree
deriving Inhabited, Repr

/-- The open nodes, innermost first, and the number of trees made so far. -/
structure Builder where
  frames : List Frame := []
  made : Nat := 0
deriving Inhabited, Repr

namespace Builder

/-- The position after the children of the innermost open node. -/
def marker (b : Builder) : Nat :=
  match b.frames with
  | [] => 0
  | f :: _ => f.children.size

/-- The position before the last child of the innermost open node. -/
def lastMarker (b : Builder) : Nat := b.marker - 1

/-- Is at most one node open? -/
def isRoot (b : Builder) : Bool := b.frames.length ≤ 1

/-- Open a node. -/
def start (b : Builder) (kind : NodeKind) : Builder :=
  { b with frames := ⟨kind, #[]⟩ :: b.frames }

/-- Open a node that takes over the children after the marker; a marker past the last child takes
over none. -/
def startAt (b : Builder) (marker : Nat) (kind : NodeKind) : Builder :=
  match b.frames with
  | [] => b.start kind
  | f :: rest =>
    { b with frames :=
        ⟨kind, f.children.extract marker f.children.size⟩ ::
          ⟨f.kind, f.children.extract 0 marker⟩ :: rest }

/-- Add a child to the innermost open node, if there is one. -/
def attach (frames : List Frame) (t : Tree) : List Frame :=
  match frames with
  | [] => []
  | f :: rest => ⟨f.kind, f.children.push t⟩ :: rest

/-- Add a token to the innermost open node; outside all nodes it is made and dropped. -/
def token (b : Builder) (index width : Nat) : Builder :=
  ⟨attach b.frames (.leaf index width), b.made + 1⟩

/-- Close the innermost open node, which becomes a child of the one around it, and answer it. -/
def finish (b : Builder) : Builder × Option Tree :=
  match b.frames with
  | [] => (b, none)
  | f :: rest =>
    let t := branch f.kind f.children.toList
    (⟨attach rest t, b.made + 1⟩, some t)

end Builder

end CodeLayout.Tree
