import ArithScript.Trace.Tree

/-!
# Writing traced text

A writer holds the text written so far and the trace tree that belongs to it. Opening a node starts
a stretch of text at the present place, closing it ends the stretch. Nodes that are open form a
stack, and a new node becomes a child of the innermost of them. The position after the text is kept
along with it and advanced by what is appended.
-/

set_option autoImplicit false

namespace ArithScript.Trace

/-- A text under construction, with its trace. -/
structure Writer where
  /-- What has been written. -/
  text : String
  /-- The position after the text. -/
  position : Position
  /-- The nodes opened so far, by number. -/
  nodes : Array Node
  /-- The numbers of the nodes that are open, the innermost first. -/
  active : List Nat
  deriving DecidableEq, Repr

namespace Writer

/-- The writer that has written nothing, with its root open. -/
def start : Writer where
  text := ""
  position := Position.zero
  nodes := #[⟨none, Target.point 0 Position.zero, #[]⟩]
  active := [Tree.root]

/-- The length of the text in bytes. -/
def length (w : Writer) : Nat := w.text.utf8ByteSize

/-- Writes a text. -/
def append (s : String) (w : Writer) : Writer :=
  { w with text := w.text ++ s, position := w.position.advanceBy s.toList }

/-- Opens a node for a region, as the last child of the innermost open node. -/
def openNode (source : Region) (w : Writer) : Writer :=
  let id := w.nodes.size
  let nodes := w.nodes.push ⟨some source, Target.point w.length w.position, #[]⟩
  { w with
    nodes :=
      match w.active with
      | parent :: _ =>
        nodes.modify parent fun node => { node with children := node.children.push id }
      | [] => nodes
    active := id :: w.active }

/-- Ends the target of a node at the present place. -/
def endTarget (id : Nat) (w : Writer) : Array Node :=
  w.nodes.modify id fun node => { node with target := node.target.endAt w.length w.position }

/-- Closes the innermost open node, which is the one with the given number. -/
def close (id : Nat) (w : Writer) : Writer :=
  { w with nodes := w.endTarget id, active := w.active.tail }

/-- Closes a node; `none` if it is not the innermost open one. -/
def close? (id : Nat) (w : Writer) : Option Writer :=
  if w.active.head? = some id then some (w.close id) else none

/-- The text and its trace tree, whose root ends with the text. Nodes that are still open keep the
empty target they were opened with. -/
def finish (w : Writer) : String × Tree := (w.text, ⟨w.endTarget Tree.root⟩)

end Writer

end ArithScript.Trace
