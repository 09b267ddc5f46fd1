import ArithScript.Proofs.WriterRuns

/-!
# What writing leaves alone

Marked text can be written on any writer, in the middle of whatever is open there. `Keeps` says what
the older nodes have to fear from it. The stack of open nodes is the same at the end as it was at
the beginning, and of a node that was there before nothing changes but the list of its children:
that of the innermost open node may grow at its end, by nodes that are new. `Extends` adds what the
new nodes are: the stretches of what was written, each ended where its stretch ends.

A stretch inside another is a child of that one, so only the outermost stretches show in a list that
was there before. While the inside of a stretch is written, the stretch itself is the innermost open
node, and so the older nodes are out of reach.
-/

set_option autoImplicit false

namespace ArithScript

namespace Trace

/-- A node with some more children. -/
def Node.adopt (node : Node) (ids : Array Nat) : Node :=
  { node with children := node.children ++ ids }

@[simp] theorem Node.adopt_empty (node : Node) : node.adopt #[] = node := by
  simp [Node.adopt]

@[simp] theorem Node.adopt_adopt (node : Node) (ids more : Array Nat) :
    (node.adopt ids).adopt more = node.adopt (ids ++ more) := by
  simp [Node.adopt]

namespace Writer

/-- What a node gets for a child when the next node is opened: that node, if it is the innermost
open one itself. -/
def gains (w : Writer) (i : Nat) : Array Nat :=
  if w.active.head? = some i then #[w.nodes.size] else #[]

theorem getElem?_openNode (region : Region) (w : Writer) {i : Nat} (hi : i < w.nodes.size) :
    (w.openNode region).nodes[i]? = w.nodes[i]?.map (·.adopt (w.gains i)) := by
  have hpushed : (w.nodes.push ⟨some region, Target.point w.length w.position, #[]⟩)[i]?
      = w.nodes[i]? := by
    rw [Array.getElem?_push, if_neg (Nat.ne_of_lt hi)]
  cases hactive : w.active with
  | nil => simp [openNode, gains, hactive, hpushed]
  | cons p rest =>
    simp only [openNode, gains, hactive, Array.getElem?_modify, hpushed, List.head?_cons,
      Option.some.injEq]
    by_cases hp : p = i
    · simp [hp, Node.adopt]
    · simp [hp]

theorem getElem?_endTarget (w : Writer) {id i : Nat} (h : id ≠ i) :
    (w.endTarget id)[i]? = w.nodes[i]? := by
  simp [endTarget, Array.getElem?_modify, h]

/-- **One writer has the nodes of another**, and the same of them are open. A node keeps its source
and its target, and only the innermost open node gets children, which are new. -/
structure Keeps (w w' : Writer) : Prop where
  active : w'.active = w.active
  size : w.nodes.size ≤ w'.nodes.size
  nodes : ∀ i < w.nodes.size, ∃ ids, w'.nodes[i]? = w.nodes[i]?.map (·.adopt ids)
    ∧ (w.active.head? ≠ some i → ids = #[])
    ∧ ∀ id ∈ ids, w.nodes.size ≤ id ∧ id < w'.nodes.size

namespace Keeps

variable {u v w : Writer}

theorem of_nodes_eq (hactive : w.active = v.active) (hnodes : w.nodes = v.nodes) : v.Keeps w := by
  refine ⟨hactive, Nat.le_of_eq (congrArg Array.size hnodes.symm), fun i _ => ?_⟩
  refine ⟨#[], ?_, fun _ => rfl, ?_⟩
  · simp [hnodes]
  · intro id hid
    exact absurd hid (Array.not_mem_empty id)

theorem refl (w : Writer) : w.Keeps w := of_nodes_eq rfl rfl

theorem trans (huv : u.Keeps v) (hvw : v.Keeps w) : u.Keeps w := by
  refine ⟨hvw.active.trans huv.active, Nat.le_trans huv.size hvw.size, fun i hi => ?_⟩
  have hsize := huv.size
  have hsize' := hvw.size
  obtain ⟨ids, hids, hnone, hnew⟩ := huv.nodes i hi
  obtain ⟨more, hmore, hnone', hnew'⟩ := hvw.nodes i (Nat.lt_of_lt_of_le hi hsize)
  refine ⟨ids ++ more, ?_, ?_, ?_⟩
  · rw [hmore, hids, Option.map_map]
    congr 1
    funext node
    exact node.adopt_adopt ids more
  · intro hhead
    rw [hnone hhead, hnone' (by rwa [huv.active])]
    rfl
  · intro id hid
    rcases Array.mem_append.mp hid with hid | hid
    · have := hnew id hid
      omega
    · have := hnew' id hid
      omega

/-- A node that is not the innermost open one stays as it is. -/
theorem getElem?_eq (h : v.Keeps w) {i : Nat} (hi : i < v.nodes.size)
    (hhead : v.active.head? ≠ some i) : w.nodes[i]? = v.nodes[i]? := by
  obtain ⟨ids, hids, hnone, -⟩ := h.nodes i hi
  rw [hids, hnone hhead]
  simp

/-- **No new node is open**, if what was open before were nodes. -/
theorem not_mem_active (h : v.Keeps w) (hopen : ∀ id ∈ v.active, id < v.nodes.size) {id : Nat}
    (hnew : v.nodes.size ≤ id) : id ∉ w.active := by
  rw [h.active]
  intro hid
  exact absurd (hopen id hid) (Nat.not_lt.mpr hnew)

/-- What happens inside a new node is nothing to the nodes before it, once it is closed. -/
theorem stretch {region : Region} (h : (u.openNode region).Keeps v) :
    u.Keeps (v.close u.nodes.size) := by
  have hsize := h.size
  rw [size_openNode] at hsize
  refine ⟨?_, ?_, fun i hi => ⟨u.gains i, ?_, ?_, ?_⟩⟩
  · rw [active_close, h.active]
    rfl
  · rw [size_close]
    omega
  · -- the new node is the innermost, and the older one is another
    have hinner : v.nodes[i]? = (u.openNode region).nodes[i]? := by
      refine h.getElem?_eq (by rw [size_openNode]; omega) ?_
      rw [active_openNode, List.head?_cons, ne_eq, Option.some.injEq]
      exact Nat.ne_of_gt hi
    rw [show (v.close u.nodes.size).nodes = v.endTarget u.nodes.size from rfl,
      v.getElem?_endTarget (Nat.ne_of_gt hi), hinner, u.getElem?_openNode region hi]
  · intro hhead
    rw [gains, if_neg hhead]
  · intro id hid
    have hid : id = u.nodes.size := by
      unfold gains at hid
      split at hid
      · simpa using hid
      · exact absurd hid (Array.not_mem_empty id)
    rw [size_close]
    omega

end Keeps

/-- **One writer goes on from another**: it keeps the nodes, and what is new is marked text with the
nodes of its stretches, each from where its stretch begins to where it ends. -/
structure Extends (w w' : Writer) : Prop extends Keeps w w' where
  added : ∃ fragments, w'.text.toList = w.text.toList ++ Fragment.allChars fragments
    ∧ outlines w'.nodes = outlines w.nodes ++ Fragment.outlineAll w.length fragments

end Writer

end Trace

namespace Fragment

open Trace

mutual

theorem keeps_write : ∀ (f : Fragment) (w : Writer), w.Keeps (f.write w)
  | .text _, _ => .of_nodes_eq rfl rfl
  | .marked none parts, w => keeps_writeAll parts w
  | .marked (some region) parts, w => (keeps_writeAll parts (w.openNode region)).stretch

theorem keeps_writeAll : ∀ (fs : List Fragment) (w : Writer), w.Keeps (writeAll fs w)
  | [], w => .refl w
  | f :: fs, w => (keeps_write f w).trans (keeps_writeAll fs (f.write w))

end

/-- **A writer goes on from where it was when fragments are written on it.** -/
theorem extends_writeAll (fs : List Fragment) (w : Writer) : w.Extends (writeAll fs w) where
  toKeeps := keeps_writeAll fs w
  added := ⟨fs, chars_writeAll fs w, outline_writeAll fs w⟩

end Fragment

end ArithScript
