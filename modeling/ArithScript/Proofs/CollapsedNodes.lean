import ArithScript.Proofs.MappingPlaces
import ArithScript.Proofs.TracedRegions
import Mathlib.Logic.Relation

/-!
# Nodes that are passed over

A node that begins where its first child begins gives no mapping, and the child may in turn be
passed over for its own first child. This has an end, because a child has a greater number than its
parent (`exists_speaksFor`), and the node at the end begins where the first one does. So if it gives
a mapping of its start, no position is lost. It does if its source has a range. All nodes but the
root have a source, and if the regions of a document have ranges so have the sources.
-/

set_option autoImplicit false

namespace ArithScript

open Trace

namespace Trace.Tree

/-- The first child of a node, if it begins where the node begins. -/
def heir? (tree : Tree) (i : Nat) : Option Nat :=
  (tree.node? i).bind fun node => node.children[0]?.filter fun j =>
    (tree.node? j).any fun child => child.target.offset = node.target.offset

/-- A node is passed over for another. -/
def PassesTo (tree : Tree) (i j : Nat) : Prop := tree.heir? i = some j

/-- The node at which the passing on from another ends. -/
def SpeaksFor (tree : Tree) (k i : Nat) : Prop :=
  Relation.ReflTransGen tree.PassesTo i k ∧ ∀ j, ¬ tree.PassesTo k j

variable {tree : Tree} {parent : Nat → Option Nat}

theorem passesTo_unique : Relator.RightUnique tree.PassesTo :=
  fun _ _ _ hj hk => Option.some.inj (hj.symm.trans hk)

theorem passesTo_iff {i j : Nat} :
    tree.PassesTo i j ↔ ∃ node child, tree.node? i = some node ∧ node.children[0]? = some j
      ∧ tree.node? j = some child ∧ child.target.offset = node.target.offset := by
  simp [PassesTo, heir?, Option.bind_eq_some_iff, Option.filter_eq_some_iff, Option.any_eq_true]

/-- The nodes that are passed over are the collapsed ones. -/
theorem isCollapsed_iff {i : Nat} {node : Node} (hnode : tree.node? i = some node) :
    tree.isCollapsed node = true ↔ ∃ j, tree.PassesTo i j := by
  unfold isCollapsed firstChild?
  constructor
  · intro hcollapsed
    split at hcollapsed
    · next child hchild =>
      obtain ⟨j, hj, hchild⟩ := Option.bind_eq_some_iff.mp hchild
      exact ⟨j, passesTo_iff.mpr ⟨node, child, hnode, hj, hchild, of_decide_eq_true hcollapsed⟩⟩
    · cases hcollapsed
  · rintro ⟨j, hpass⟩
    obtain ⟨node', child, hnode', hj, hchild, hoffset⟩ := passesTo_iff.mp hpass
    obtain rfl : node = node' := Option.some.inj (hnode.symm.trans hnode')
    rw [hj, Option.bind_some, hchild]
    exact decide_eq_true hoffset

theorem PassesTo.lt (hn : tree.Numbered parent) {i j : Nat} (h : tree.PassesTo i j) :
    i < j ∧ j < tree.size := by
  obtain ⟨node, child, hnode, hj, -, -⟩ := passesTo_iff.mp h
  refine hn.parent_lt j i (hn.isChild_iff.mp ?_)
  rw [IsChild, children_of_node? hnode]
  rw [← Array.getElem?_toList] at hj
  exact List.mem_of_getElem? hj

/-- **Passing on has an end.** The numbers grow on the way, and there are no more than the nodes. -/
theorem exists_speaksFor (hn : tree.Numbered parent) (i : Nat) :
    ∃ k, tree.SpeaksFor k i ∧ i ≤ k := by
  -- the induction is on how many numbers are left from `i` on
  induction hleft : tree.size - i using Nat.strongRecOn generalizing i with
  | _ left ih =>
    by_cases hpass : ∃ j, tree.PassesTo i j
    · obtain ⟨j, hj⟩ := hpass
      obtain ⟨hij, hsize⟩ := hj.lt hn
      obtain ⟨k, ⟨hreach, hend⟩, hjk⟩ := ih (tree.size - j) (by omega) j rfl
      exact ⟨k, ⟨.head hj hreach, hend⟩, by omega⟩
    · exact ⟨i, ⟨.refl, not_exists.mp hpass⟩, Nat.le_refl i⟩

theorem SpeaksFor.unique {i k l : Nat} (hk : tree.SpeaksFor k i) (hl : tree.SpeaksFor l i) :
    l = k := by
  have hlast : ∀ {a b : Nat}, Relation.ReflTransGen tree.PassesTo a b → (∀ j, ¬ tree.PassesTo a j) →
      b = a := by
    intro a b hab hend
    rcases hab.cases_head with rfl | ⟨c, hac, -⟩
    · rfl
    · exact absurd hac (hend c)
  rcases hk.1.total_of_right_unique passesTo_unique hl.1 with hkl | hlk
  · exact hlast hkl hk.2
  · exact (hlast hlk hl.2).symm

/-- On the way the beginning stays the same. -/
theorem exists_node_of_passes {i k : Nat} (h : Relation.ReflTransGen tree.PassesTo i k)
    {node : Node} (hnode : tree.node? i = some node) :
    ∃ reached, tree.node? k = some reached ∧ reached.target.offset = node.target.offset := by
  induction h with
  | refl => exact ⟨node, hnode, rfl⟩
  | tail _ hpass ih =>
    obtain ⟨reached, hreached, hstart⟩ := ih
    obtain ⟨reached', child, hreached', -, hchild, hoffset⟩ := passesTo_iff.mp hpass
    obtain rfl : reached = reached' := Option.some.inj (hreached.symm.trans hreached')
    exact ⟨child, hchild, hoffset.trans hstart⟩

/-- The node that speaks for another begins where that one begins, and is not collapsed. -/
theorem SpeaksFor.exists_node {i k : Nat} (h : tree.SpeaksFor k i) {node : Node}
    (hnode : tree.node? i = some node) :
    ∃ speaker, tree.node? k = some speaker ∧ speaker.target.offset = node.target.offset
      ∧ tree.isCollapsed speaker = false := by
  obtain ⟨speaker, hspeaker, hoffset⟩ := exists_node_of_passes h.1 hnode
  refine ⟨speaker, hspeaker, hoffset, Bool.eq_false_iff.mpr fun hcollapsed => ?_⟩
  obtain ⟨j, hj⟩ := (isCollapsed_iff hspeaker).mp hcollapsed
  exact h.2 j hj

end Trace.Tree

/-! ## The mappings of a node

The mappings of a script are those of its nodes one after the other. A node that is not passed over
and whose source has a range gives a mapping of its start first. -/

/-- What the visit of a tree adds at a number. -/
def mappingsAt (texts : Texts) (options : Options) (tree : Tree) (id : Nat) : List Mapping :=
  match tree.node? id with
  | some node => nodeMappings texts options tree node
  | none => []

theorem synthesize_eq_flatMap (texts : Texts) (options : Options) (tree : Tree) :
    synthesize texts options tree = tree.preorder.flatMap (mappingsAt texts options tree) := rfl

/-- A node that is not collapsed and whose source has a range maps its start, and that first. -/
theorem exists_start (texts : Texts) (options : Options) {tree : Tree} {id : Nat} {node : Node}
    (hnode : tree.node? id = some node) (hkept : tree.isCollapsed node = false) {region : Region}
    {range : Range} (hsource : node.source = some region) (hrange : region.range = some range) :
    ∃ name, (mappingsAt texts options tree id).head?
      = some ⟨node.target.range.start, range.start, texts.filename, name⟩ := by
  rw [mappingsAt, hnode]
  dsimp only
  rw [nodeMappings, hkept, hsource]
  simp only [Bool.false_eq_true, if_false, hrange]
  split
  · exact ⟨_, rfl⟩
  · exact ⟨_, rfl⟩

namespace Module

variable {m : Module}

/-- Nodes that begin at the same offset begin at the same position. -/
theorem start_eq_of_offset_eq {i j : Nat} {a b : Node} (ha : m.writer.finish.2.node? i = some a)
    (hb : m.writer.finish.2.node? j = some b) (hoffset : a.target.offset = b.target.offset) :
    a.target.range.start = b.target.range.start := by
  have hfound := (isPlace_target (Array.mem_iff_getElem?.mpr ⟨i, ha⟩)).1.position?
  have hfound' := (isPlace_target (Array.mem_iff_getElem?.mpr ⟨j, hb⟩)).1.position?
  rw [hoffset, hfound'] at hfound
  exact (Option.some.inj hfound).symm

/-- If the regions of a module have ranges, so has the source of every node but the root. -/
theorem exists_range (hranges : ∀ r ∈ m.regions, r.range.isSome = true) {id : Nat}
    (hid : id ≠ Tree.root) {node : Node} (hnode : m.writer.finish.2.node? id = some node) :
    ∃ region range, node.source = some region ∧ region.range = some range := by
  have hcover : ∀ r s : Region, r.range.isSome = true → s.range.isSome = true →
      (r.cover s).range.isSome = true := by
    intro r s hr hs
    obtain ⟨a, ha⟩ := Option.isSome_iff_exists.mp hr
    obtain ⟨b, hb⟩ := Option.isSome_iff_exists.mp hs
    simp [Region.cover, ha, hb]
  obtain ⟨region, hregion⟩ := exists_source hid hnode
  have hsome : region.range.isSome = true :=
    source_of_node hcover hranges (Array.mem_iff_getElem?.mpr ⟨id, hnode⟩) hregion
  obtain ⟨range, hrange⟩ := Option.isSome_iff_exists.mp hsome
  exact ⟨region, range, hregion, hrange⟩

end Module

/-- **Passing over nodes loses no position.** Take a document all of whose regions have ranges, and
anything that is generated from it. From every node but the root the passing on to first children
that begin at the same offset ends at one node. That node is visited once, and what the visit adds
there begins with a mapping of its start, which has the position where the node begins that was
passed over first. -/
theorem Document.mappings_cover_nodes {d : Document} {uri : String} {options : Options}
    {generated : Generated} (h : d.generate uri options = .ok generated)
    (hranges : ∀ r ∈ d.regions, r.range.isSome = true) :
    ∃ script tree, d.module.lower options.maxDepth = .ok (script, tree)
      ∧ generated.mappings = tree.preorder.flatMap (mappingsAt (d.texts uri script) options tree)
      ∧ ∀ id node, id ≠ Tree.root → tree.node? id = some node →
          ∃ k speaker region range start, (∀ l, tree.SpeaksFor l id ↔ l = k)
            ∧ tree.node? k = some speaker ∧ tree.preorder.count k = 1
            ∧ speaker.source = some region ∧ region.range = some range
            ∧ (mappingsAt (d.texts uri script) options tree k).head? = some start
            ∧ start ∈ generated.mappings
            ∧ start.generated = node.target.range.start ∧ start.origin = range.start := by
  obtain ⟨script, tree, hlower, rfl⟩ := exists_lower_of_generate h
  obtain rfl : tree = d.module.writer.finish.2 := by rw [Module.finish_writer_of_lower hlower]
  obtain ⟨parent, hn, -, -⟩ := Writer.exists_finished d.module.reaches_writer d.module.active_writer
  have hmappings := d.mappings_assemble uri options script d.module.writer.finish.2
  rw [mappingsOf, synthesize_eq_flatMap] at hmappings
  refine ⟨script, _, hlower, hmappings, fun id node hid hnode => ?_⟩
  obtain ⟨k, hspeaks, hle⟩ := Tree.exists_speaksFor hn id
  obtain ⟨speaker, hspeaker, hoffset, hkept⟩ := hspeaks.exists_node hnode
  -- numbers grow on the way, so the root is not reached and the speaker has a source
  have hk : k ≠ Tree.root := Nat.ne_of_gt (Nat.lt_of_lt_of_le (Nat.pos_of_ne_zero hid) hle)
  obtain ⟨region, range, hsource, hrange⟩ := Module.exists_range hranges hk hspeaker
  obtain ⟨name, hstart⟩ := exists_start (d.texts uri script) options hspeaker hkept hsource hrange
  have hvisited : k ∈ d.module.writer.finish.2.preorder := by
    rw [Module.preorder_finish, List.mem_range]
    exact Tree.lt_size_of_node? hspeaker
  refine ⟨k, speaker, region, range, _, fun l => ⟨hspeaks.unique, fun hl => hl ▸ hspeaks⟩,
    hspeaker, ?_, hsource, hrange, hstart, ?_, ?_, rfl⟩
  · rw [Module.preorder_finish] at hvisited ⊢
    exact List.count_eq_one_of_mem List.nodup_range hvisited
  · rw [hmappings, List.mem_flatMap]
    exact ⟨k, hvisited, List.mem_of_head? hstart⟩
  · exact Module.start_eq_of_offset_eq hspeaker hnode hoffset

/-- The power `a ^ b`, in which each operand and its name have the same region. -/
def Document.ranged : Document :=
  let region (first last : Nat) : Option Region := some ⟨first, last, some ⟨⟨0, first⟩, ⟨0, last⟩⟩⟩
  ⟨some "a ^ b;", none, [.evaluation ⟨.binary .pow (region 2 3)
    (.call ⟨"a", region 0 1⟩ [] (region 0 1)) (.call ⟨"b", region 4 5⟩ [] (region 4 5))
    (region 0 5), region 0 6⟩]⟩

/-- In the sample the power is passed over for its left operand, and that for its name, which maps
the place where all three begin. -/
theorem Document.mappings_cover_nodes_ranged :
    (∀ r ∈ Document.ranged.regions, r.range.isSome = true)
      ∧ ∃ generated tree, Document.ranged.generate "a/b" Options.default = .ok generated
        ∧ tree = Document.ranged.module.writer.finish.2
        ∧ tree.PassesTo 2 3 ∧ tree.PassesTo 3 4 ∧ tree.SpeaksFor 4 2
        ∧ ∃ node start, tree.node? 2 = some node ∧ start ∈ generated.mappings
          ∧ start.generated = node.target.range.start ∧ start.origin = ⟨0, 0⟩ := by
  have hranges : ∀ r ∈ Document.ranged.regions, r.range.isSome = true := by decide
  obtain ⟨generated, hgenerate⟩ := (Document.ranged.generate_eq "a/b" Options.default).1 (by decide)
  obtain ⟨script, tree, hlower, -, hcover⟩ := mappings_cover_nodes hgenerate hranges
  obtain rfl : tree = Document.ranged.module.writer.finish.2 := by
    rw [Module.finish_writer_of_lower hlower]
  have hheirs : [2, 3, 4].map Document.ranged.module.writer.finish.2.heir?
      = [some 3, some 4, none] := by decide +kernel
  obtain ⟨hpower, hoperand, hname⟩ : Document.ranged.module.writer.finish.2.PassesTo 2 3
      ∧ Document.ranged.module.writer.finish.2.PassesTo 3 4
      ∧ Document.ranged.module.writer.finish.2.heir? 4 = none := by
    simpa [Tree.PassesTo] using hheirs
  have hspeaker : Document.ranged.module.writer.finish.2.SpeaksFor 4 2 :=
    ⟨.head hpower (.single hoperand), fun j hj => by simp [Tree.PassesTo, hname] at hj⟩
  have hsource : (Document.ranged.module.writer.finish.2.node? 4).bind Node.source
      = some ⟨0, 1, some ⟨⟨0, 0⟩, ⟨0, 1⟩⟩⟩ := by decide +kernel
  obtain ⟨node, -, hnode, -⟩ := Tree.passesTo_iff.mp hpower
  obtain ⟨k, speaker, region, range, start, hspeaks, hk, -, hregion, hrange, -, hmem,
    hplace, horigin⟩ :=
    hcover 2 node (by decide) hnode
  obtain rfl : 4 = k := (hspeaks 4).mp hspeaker
  rw [hk, Option.bind_some, hregion] at hsource
  cases hsource
  cases hrange
  exact ⟨hranges, generated, _, hgenerate, rfl, hpower, hoperand, hspeaker, node, start,
    hnode, hmem, hplace, horigin⟩

end ArithScript
