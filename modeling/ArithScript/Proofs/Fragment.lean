import ArithScript.Proofs.Units
import ArithScript.Trace.Writer

/-!
# Marked text

A `Fragment` is text in which stretches are marked with the region they came from. It is what a
writer is told, without the writer: no offsets, no numbers of nodes, no stack. What the text is
(`chars`) and which stretches are marked, in the order in which they begin (`spans`), can be read
off it by structural recursion.

`write` replays a fragment on a writer. The two facts that everything about generated scripts rests
on are that this appends `chars` to the text (`chars_writeAll`), and that it appends exactly the
nodes of `outline`, each with the stretch it marks (`outline_writeAll`), whatever was written before
and whichever nodes were open. A node is pushed when its stretch begins and its end is set when the
stretch is over, so between the two the node has a wrong target; both facts are stated at the
boundaries of a fragment, where no such node is left.
-/

set_option autoImplicit false

namespace ArithScript

/-- Text with marked stretches. -/
inductive Fragment where
  | text (s : String)
  /-- Some fragments in a row, as one stretch. Without a region the stretch is not marked. -/
  | marked (source : Option Region) (parts : List Fragment)
  deriving Inhabited

namespace Fragment

mutual

/-- The text of a fragment. -/
def chars : Fragment → List Char
  | .text s => s.toList
  | .marked _ parts => allChars parts

/-- The text of some fragments in a row. -/
def allChars : List Fragment → List Char
  | [] => []
  | part :: parts => part.chars ++ allChars parts

end

mutual

/-- The marked stretches of a fragment with their regions, each before those inside it. -/
def spans : Fragment → List (Region × List Char)
  | .text _ => []
  | .marked none parts => allSpans parts
  | .marked (some region) parts => (region, allChars parts) :: allSpans parts

/-- The marked stretches of some fragments in a row. -/
def allSpans : List Fragment → List (Region × List Char)
  | [] => []
  | part :: parts => part.spans ++ allSpans parts

end

mutual

/-- Writes a fragment, with a node for each marked stretch. -/
def write : Fragment → Trace.Writer → Trace.Writer
  | .text s, w => w.append s
  | .marked none parts, w => writeAll parts w
  | .marked (some region) parts, w => (writeAll parts (w.openNode region)).close w.nodes.size

/-- Writes some fragments in a row. -/
def writeAll : List Fragment → Trace.Writer → Trace.Writer
  | [], w => w
  | part :: parts, w => writeAll parts (part.write w)

end

@[simp] theorem allChars_nil : allChars [] = [] := rfl

@[simp] theorem allChars_cons (part : Fragment) (parts : List Fragment) :
    allChars (part :: parts) = part.chars ++ allChars parts := rfl

@[simp] theorem allChars_append (ps qs : List Fragment) :
    allChars (ps ++ qs) = allChars ps ++ allChars qs := by
  induction ps with
  | nil => rfl
  | cons p ps ih => simp [ih]

@[simp] theorem writeAll_append (ps qs : List Fragment) (w : Trace.Writer) :
    writeAll (ps ++ qs) w = writeAll qs (writeAll ps w) := by
  induction ps generalizing w with
  | nil => rfl
  | cons p ps ih => exact ih (p.write w)

/-! ## The text

Opening and closing nodes writes nothing, so the text of a fragment is the text in it. -/

mutual

theorem chars_write : ∀ (f : Fragment) (w : Trace.Writer),
    (f.write w).text.toList = w.text.toList ++ f.chars
  | .text s, w => by simp [write, chars, Trace.Writer.append]
  | .marked none parts, w => chars_writeAll parts w
  | .marked (some region) parts, w => chars_writeAll parts (w.openNode region)

/-- **Writing fragments appends their text.** -/
theorem chars_writeAll : ∀ (fs : List Fragment) (w : Trace.Writer),
    (writeAll fs w).text.toList = w.text.toList ++ allChars fs
  | [], w => by simp [writeAll]
  | f :: fs, w => by
    rw [writeAll, chars_writeAll fs, chars_write f, allChars_cons, List.append_assoc]

end

/-- The length of the writer after fragments, as that of two texts. -/
theorem length_writeAll (fs : List Fragment) (w : Trace.Writer) :
    (writeAll fs w).length = w.length + Text.byteLength (allChars fs) := by
  show (writeAll fs w).text.utf8ByteSize = w.text.utf8ByteSize + _
  rw [← Text.byteLength_toList, chars_writeAll, Text.byteLength_append, Text.byteLength_toList]

theorem length_write (f : Fragment) (w : Trace.Writer) :
    (f.write w).length = w.length + Text.byteLength f.chars := by
  have := length_writeAll [f] w
  simpa [writeAll] using this

end Fragment

/-! ## The nodes

Of a node only its source and its byte offsets matter here; a node whose children change keeps its
outline. -/

/-- A node without its positions and children: its source, and the byte offsets of its target. -/
structure Outline where
  source : Option Region
  offset : Nat
  stop : Nat
  deriving DecidableEq, Repr

/-- The outline of a node. -/
def Trace.Node.outline (node : Trace.Node) : Outline :=
  ⟨node.source, node.target.offset, node.target.stop⟩

/-- The outlines of some nodes. -/
def Trace.outlines (nodes : Array Trace.Node) : List Outline := nodes.toList.map Trace.Node.outline

/-- An outline that ends elsewhere. -/
def Outline.endAt (o : Outline) (stop : Nat) : Outline := { o with stop := stop }

namespace Trace.Writer

/-- **Opening a node appends it**, for any view of nodes that does not show their children: the
parent gains a child and nothing else. -/
theorem map_openNode {β : Type} (view : Node → β)
    (hview : ∀ node children, view { node with children := children } = view node)
    (region : Region) (w : Writer) :
    (w.openNode region).nodes.toList.map view
      = w.nodes.toList.map view ++ [view ⟨some region, Target.point w.length w.position, #[]⟩] := by
  have pushed : (w.nodes.push ⟨some region, Target.point w.length w.position, #[]⟩).toList.map view
      = w.nodes.toList.map view ++ [view ⟨some region, Target.point w.length w.position, #[]⟩] := by
    simp
  rw [← pushed]
  cases hactive : w.active with
  | nil => simp [openNode, hactive]
  | cons parent rest =>
    simp only [openNode, hactive, Array.toList_modify]
    apply List.ext_getElem?
    intro i
    rw [List.getElem?_map, List.getElem?_map, List.getElem?_modify]
    by_cases hi : parent = i
    · subst hi
      cases (w.nodes.push ⟨some region, Target.point w.length w.position, #[]⟩).toList[parent]? <;>
        simp [hview]
    · simp [hi]

/-- **Ending a target changes one node**, for any view of nodes. -/
theorem map_endTarget {β : Type} (view : Node → β) (change : β → β) (w : Writer)
    (hview : ∀ node : Node,
      view { node with target := node.target.endAt w.length w.position } = change (view node))
    (id : Nat) :
    (w.endTarget id).toList.map view = (w.nodes.toList.map view).modify id change := by
  simp only [endTarget, Array.toList_modify]
  apply List.ext_getElem?
  intro i
  rw [List.getElem?_map, List.getElem?_modify, List.getElem?_modify, List.getElem?_map]
  by_cases hi : id = i
  · subst hi
    cases w.nodes.toList[id]? <;> simp [hview]
  · simp [hi]

theorem outlines_openNode (region : Region) (w : Writer) :
    outlines (w.openNode region).nodes
      = outlines w.nodes ++ [⟨some region, w.length, w.length⟩] :=
  map_openNode Node.outline (fun _ _ => rfl) region w

theorem outlines_endTarget (id : Nat) (w : Writer) :
    outlines (w.endTarget id) = (outlines w.nodes).modify id (·.endAt w.length) :=
  map_endTarget Node.outline (·.endAt w.length) w (fun _ => rfl) id

end Trace.Writer

namespace Fragment

mutual

/-- The outlines of the nodes of a fragment that is written at a byte offset. -/
def outline : Nat → Fragment → List Outline
  | _, .text _ => []
  | start, .marked none parts => outlineAll start parts
  | start, .marked (some region) parts =>
    ⟨some region, start, start + Text.byteLength (allChars parts)⟩ :: outlineAll start parts

/-- The outlines of the nodes of some fragments in a row. -/
def outlineAll : Nat → List Fragment → List Outline
  | _, [] => []
  | start, part :: parts =>
    outline start part ++ outlineAll (start + Text.byteLength part.chars) parts

end

mutual

theorem outline_write : ∀ (f : Fragment) (w : Trace.Writer),
    Trace.outlines (f.write w).nodes = Trace.outlines w.nodes ++ f.outline w.length
  | .text s, w => by simp [write, outline, Trace.Writer.append]
  | .marked none parts, w => outline_writeAll parts w
  | .marked (some region) parts, w => by
    have opened := w.outlines_openNode region
    have inner := outline_writeAll parts (w.openNode region)
    have index : w.nodes.size = (Trace.outlines w.nodes).length := by simp [Trace.outlines]
    rw [opened, show (w.openNode region).length = w.length from rfl, List.append_assoc,
      List.singleton_append] at inner
    show Trace.outlines (Trace.Writer.endTarget w.nodes.size _) = _
    rw [Trace.Writer.outlines_endTarget, inner, length_writeAll, index]
    exact List.modifyTailIdx_add _ 0 _ _

/-- **Writing fragments appends their nodes**, in the order in which their stretches begin. -/
theorem outline_writeAll : ∀ (fs : List Fragment) (w : Trace.Writer),
    Trace.outlines (writeAll fs w).nodes = Trace.outlines w.nodes ++ outlineAll w.length fs
  | [], w => by simp [writeAll, outlineAll]
  | f :: fs, w => by
    rw [writeAll, outline_writeAll fs, outline_write f, outlineAll, length_write,
      List.append_assoc]

end

end Fragment

end ArithScript
