import ArithScript.Region

/-!
# Trace trees

A trace tree records where the parts of a generated text came from. Its nodes are numbered in the
order in which they were opened, and node 0, the root, stands for the whole text. A node has the
region of source text it came from, its target, which is the stretch of generated text it became,
and the numbers of its children.
-/

set_option autoImplicit false

namespace ArithScript.Trace

/-- A stretch of generated text, in bytes and in positions. -/
structure Target where
  offset : Nat
  stop : Nat
  range : Range
  deriving DecidableEq, Repr, Inhabited

namespace Target

/-- The empty stretch at a place. -/
def point (offset : Nat) (position : Position) : Target := ⟨offset, offset, position, position⟩

/-- The same stretch up to another place. -/
def endAt (target : Target) (stop : Nat) (position : Position) : Target :=
  { target with stop := stop, range := { target.range with stop := position } }

/-- Whether one stretch lies inside another. -/
def contains (outer inner : Target) : Bool :=
  outer.offset ≤ inner.offset && inner.stop ≤ outer.stop

end Target

/-- A node of a trace tree. -/
structure Node where
  source : Option Region
  target : Target
  children : Array Nat
  deriving DecidableEq, Repr, Inhabited

/-- Whether a node has no children. -/
def Node.isLeaf (node : Node) : Bool := node.children.isEmpty

/-- A trace tree, as its nodes in the order of their numbers. -/
structure Tree where
  nodes : Array Node
  deriving DecidableEq, Repr, Inhabited

namespace Tree

/-- The number of the root. -/
def root : Nat := 0

/-- The number of nodes. -/
def size (tree : Tree) : Nat := tree.nodes.size

/-- The node with a number. -/
def node? (tree : Tree) (id : Nat) : Option Node := tree.nodes[id]?

/-- The numbers of the children of a node. -/
def children (tree : Tree) (id : Nat) : List Nat :=
  match tree.node? id with
  | some node => node.children.toList
  | none => []

/-- The first child of a node. -/
def firstChild? (tree : Tree) (node : Node) : Option Node := node.children[0]?.bind tree.node?

/-- A node is collapsed if its first child starts where it starts: the child then speaks for the
place. -/
def isCollapsed (tree : Tree) (node : Node) : Bool :=
  match tree.firstChild? node with
  | some child => child.target.offset == node.target.offset
  | none => false

end Tree

end ArithScript.Trace
