import ArithScript.Proofs.FilledFragments
import ArithScript.Proofs.Generation
import ArithScript.Proofs.Provenance
import ArithScript.Proofs.TraceTree

/-!
# Where mappings stand

The mappings of a script come in the order of its trace, and this is the order of their generated
places. The trace has nodes that begin at the same place, so something has to keep their mappings
from piling up there: a node that begins where its first child begins is passed over. The first
child of a node is the next number, if the node encloses any number at all. So of nodes that begin
together only the last is not passed over, provided that none is empty, which the names of a module
see to.

A node has one mapping for its start, and a leaf may have one for its end. `MappingSite` keeps the
two apart. Sites of one kind never meet; of different kinds they may, where a leaf ends and the next
node begins.
-/

set_option autoImplicit false

namespace ArithScript

open Trace

/-! ## The order of nodes

Of two nodes the one with the greater number begins later, or at the same place if the first is
passed over. A leaf ends before any later node begins. -/

namespace Trace

variable {tree : Tree} {parent : Nat → Option Nat} {length : Nat}

theorem Tree.children_of_node? {i : Nat} {node : Node} (h : tree.node? i = some node) :
    tree.children i = node.children.toList := by
  rw [Tree.children, h]

theorem Tree.lt_size_of_node? {i : Nat} {node : Node} (h : tree.node? i = some node) :
    i < tree.size :=
  (Array.getElem?_eq_some_iff.mp h).1

/-- The first child of a node that encloses anything is the next number. -/
theorem Tree.Numbered.children_of_encloses (hn : tree.Numbered parent) {i j : Nat} (hij : i < j)
    (hj : j < tree.size) (h : Encloses parent i j) : ∃ rest, tree.children i = (i + 1) :: rest := by
  obtain ⟨q, hq, hiq⟩ := h (i + 1) (Nat.lt_succ_self i) hij
  have hqi := (hn.parent_lt _ _ hq).1
  obtain rfl : q = i := by omega
  obtain ⟨count, hcount⟩ : ∃ count, tree.size - (q + 1) = count + 1 :=
    ⟨tree.size - (q + 1) - 1, by omega⟩
  rw [hn.children_eq (by omega), hcount, List.range'_succ,
    List.filter_cons_of_pos (by simpa using hq)]
  exact ⟨_, rfl⟩

namespace Spaced

variable (h : Spaced tree.targets [] length parent) (hn : tree.Numbered parent)
include h hn

/-- **A node that is not passed over begins before all later nodes.** -/
theorem offset_lt {i j : Nat} {a b : Node} (hij : i < j) (ha : tree.node? i = some a)
    (hb : tree.node? j = some b) (hfilled : a.target.offset < a.target.stop)
    (hkept : tree.isCollapsed a = false) : a.target.offset < b.target.offset := by
  have hta := Tree.getElem?_targets_of_node? ha
  have htb := Tree.getElem?_targets_of_node? hb
  have hj := Tree.lt_size_of_node? hb
  by_cases hencloses : Encloses parent i j
  · -- the first child begins later, and the other node not before it
    obtain ⟨rest, hchildren⟩ := hn.children_of_encloses hij hj hencloses
    obtain ⟨child, hchild⟩ : ∃ child, tree.node? (i + 1) = some child :=
      ⟨_, Array.getElem?_eq_getElem (Nat.lt_of_le_of_lt hij hj)⟩
    have htchild := Tree.getElem?_targets_of_node? hchild
    have hfirst : tree.firstChild? a = some child := by
      rw [Tree.children_of_node? ha] at hchildren
      rw [Tree.firstChild?, ← Array.getElem?_toList, hchildren]
      exact hchild
    have hne : child.target.offset ≠ a.target.offset := by
      simpa [Tree.isCollapsed, hfirst] using hkept
    have hlt := h.ascending i (i + 1) _ _ (Nat.lt_succ_self i) hta htchild
    rcases Nat.lt_or_eq_of_le (Nat.succ_le_of_lt hij) with hnext | rfl
    · have := h.ascending (i + 1) j _ _ hnext htchild htb
      omega
    · rw [hchild] at hb
      cases hb
      omega
  · have := (h.apart i j _ _ hij hta htb hencloses).2
    omega

/-- A leaf ends before all later nodes begin. -/
theorem stop_le_of_isLeaf {i j : Nat} {a b : Node} (hij : i < j) (ha : tree.node? i = some a)
    (hb : tree.node? j = some b) (hleaf : a.isLeaf = true) : a.target.stop ≤ b.target.offset := by
  refine (h.apart i j _ _ hij (Tree.getElem?_targets_of_node? ha)
    (Tree.getElem?_targets_of_node? hb) fun hencloses => ?_).2
  obtain ⟨rest, hchildren⟩ := hn.children_of_encloses hij (Tree.lt_size_of_node? hb) hencloses
  rw [Tree.children_of_node? ha] at hchildren
  have hempty : a.children = #[] := by simpa [Node.isLeaf] using hleaf
  rw [hempty] at hchildren
  cases hchildren

end Spaced

end Trace

/-! ## Sites

A site is a mapping before it is turned into positions: a node with one of its ends. Sites come in
the order of the visit, and each precedes all that come after it. -/

/-- A mapping with the node that it was made for, and which end of the node it maps. -/
structure MappingSite where
  node : Node
  atStart : Bool
  mapping : Mapping

namespace MappingSite

/-- The byte offset of the generated place. -/
def offset (s : MappingSite) : Nat :=
  if s.atStart then s.node.target.offset else s.node.target.stop

/-- A site in a tree: the mapping is that of the start of a node, or of the end of a leaf. -/
def IsIn (tree : Tree) (s : MappingSite) : Prop :=
  s.node ∈ tree.nodes ∧ ∃ region range, s.node.source = some region ∧ region.range = some range
    ∧ if s.atStart then
        s.mapping.generated = s.node.target.range.start ∧ s.mapping.origin = range.start
      else
        s.node.isLeaf = true ∧ s.mapping.generated = s.node.target.range.stop
          ∧ s.mapping.origin = range.stop

end MappingSite

/-- The mappings of a node as sites: the first is for its start. -/
def nodeSites (texts : Texts) (options : Options) (tree : Tree) (node : Node) : List MappingSite :=
  match nodeMappings texts options tree node with
  | [] => []
  | first :: rest => ⟨node, true, first⟩ :: rest.map fun m => ⟨node, false, m⟩

/-- The mappings of a tree as sites. -/
def mappingSites (texts : Texts) (options : Options) (tree : Tree) : List MappingSite :=
  tree.preorder.flatMap fun id =>
    match tree.node? id with
    | some node => nodeSites texts options tree node
    | none => []

section

variable {texts : Texts} {options : Options} {tree : Tree}

theorem map_nodeSites (node : Node) :
    (nodeSites texts options tree node).map MappingSite.mapping
      = nodeMappings texts options tree node := by
  unfold nodeSites
  split
  · next hnone => simp [hnone]
  · next first rest hsome => simp [hsome, Function.comp_def]

theorem map_mappingSites :
    (mappingSites texts options tree).map MappingSite.mapping = synthesize texts options tree := by
  unfold mappingSites synthesize
  rw [List.map_flatMap]
  congr 1
  funext id
  cases tree.node? id with
  | none => rfl
  | some node => exact map_nodeSites node

/-- **The mappings of a node**: none, or one for its start, and then possibly one for its end, if it
is a leaf and ends are asked for. -/
theorem nodeSites_cases (texts : Texts) (options : Options) (tree : Tree) (node : Node) :
    nodeSites texts options tree node = []
      ∨ tree.isCollapsed node = false ∧ ∃ region range name,
          node.source = some region ∧ region.range = some range
            ∧ (nodeSites texts options tree node
                  = [⟨node, true, node.target.range.start, range.start, texts.filename, name⟩]
                ∨ options.endMappings = true ∧ node.isLeaf = true
                  ∧ nodeSites texts options tree node
                    = [⟨node, true, node.target.range.start, range.start, texts.filename, name⟩,
                      ⟨node, false, node.target.range.stop, range.stop, texts.filename,
                        none⟩]) := by
  unfold nodeSites nodeMappings
  cases hcollapsed : tree.isCollapsed node with
  | true => exact Or.inl rfl
  | false =>
    cases hsource : node.source with
    | none => exact Or.inl rfl
    | some region =>
      cases hrange : region.range with
      | none => exact Or.inl (by simp [hrange])
      | some range =>
        refine Or.inr ⟨rfl, region, range, if options.symbolNames then
          symbolName? (Text.slice region.offset region.stop texts.source) else none,
          rfl, hrange, ?_⟩
        simp only [Bool.false_eq_true, if_false, hrange]
        -- the end is mapped for a leaf with solid text on both sides only
        by_cases hends : (options.endMappings && node.isLeaf
            && Text.isSolid (Text.slice region.offset region.stop texts.source)
            && Text.isSolid (Text.slice node.target.offset node.target.stop texts.generated)) = true
        · rw [if_pos hends]
          simp only [Bool.and_eq_true] at hends
          exact Or.inr ⟨hends.1.1.1, hends.1.1.2, rfl⟩
        · rw [if_neg hends]
          exact Or.inl rfl

/-- What is known of a site from the node that it belongs to. -/
theorem mem_nodeSites {node : Node} {s : MappingSite} (h : s ∈ nodeSites texts options tree node) :
    s.node = node ∧ tree.isCollapsed node = false
      ∧ (s.atStart = false → options.endMappings = true ∧ node.isLeaf = true) := by
  rcases nodeSites_cases texts options tree node with
    hnone | ⟨hkept, region, range, name, -, -, hsites | ⟨hends, hleaf, hsites⟩⟩
  · rw [hnone] at h
    exact absurd h List.not_mem_nil
  · rw [hsites, List.mem_singleton] at h
    subst h
    exact ⟨rfl, hkept, fun hstop => absurd hstop (by simp)⟩
  · rw [hsites, List.mem_cons, List.mem_singleton] at h
    rcases h with rfl | rfl
    · exact ⟨rfl, hkept, fun hstop => absurd hstop (by simp)⟩
    · exact ⟨rfl, hkept, fun _ => ⟨hends, hleaf⟩⟩

theorem isIn_of_mem_nodeSites {node : Node} (hnode : node ∈ tree.nodes) {s : MappingSite}
    (h : s ∈ nodeSites texts options tree node) : s.IsIn tree := by
  rcases nodeSites_cases texts options tree node with
    hnone | ⟨-, region, range, name, hregion, hrange, hsites | ⟨-, hleaf, hsites⟩⟩
  · rw [hnone] at h
    exact absurd h List.not_mem_nil
  · rw [hsites, List.mem_singleton] at h
    subst h
    exact ⟨hnode, region, range, hregion, hrange, rfl, rfl⟩
  · rw [hsites, List.mem_cons, List.mem_singleton] at h
    rcases h with rfl | rfl
    · exact ⟨hnode, region, range, hregion, hrange, rfl, rfl⟩
    · exact ⟨hnode, region, range, hregion, hrange, hleaf, rfl, rfl⟩

theorem mem_mappingSites {s : MappingSite} (h : s ∈ mappingSites texts options tree) :
    ∃ id node, tree.node? id = some node ∧ s ∈ nodeSites texts options tree node := by
  obtain ⟨id, -, hs⟩ := List.mem_flatMap.mp h
  cases hnode : tree.node? id with
  | none =>
    rw [hnode] at hs
    exact absurd hs List.not_mem_nil
  | some node =>
    rw [hnode] at hs
    exact ⟨id, node, hnode, hs⟩

theorem isIn_of_mem_mappingSites {s : MappingSite} (h : s ∈ mappingSites texts options tree) :
    s.IsIn tree := by
  obtain ⟨id, node, hnode, hs⟩ := mem_mappingSites h
  exact isIn_of_mem_nodeSites (Array.mem_iff_getElem?.mpr ⟨id, hnode⟩) hs

/-- Without mappings of ends every site is a start. -/
theorem atStart_of_mem_mappingSites (hends : options.endMappings = false) {s : MappingSite}
    (h : s ∈ mappingSites texts options tree) : s.atStart = true := by
  obtain ⟨id, node, -, hs⟩ := mem_mappingSites h
  by_contra hstop
  rw [((mem_nodeSites hs).2.2 (Bool.eq_false_iff.mpr hstop)).1] at hends
  cases hends

/-- One site may stand before another: it is not later, and earlier if it is of the same kind. -/
def MappingSite.Precedes (s t : MappingSite) : Prop :=
  s.offset ≤ t.offset ∧ (s.atStart = t.atStart → s.offset < t.offset)

theorem pairwise_nodeSites {node : Node}
    (hfilled : node.source ≠ none → node.target.offset < node.target.stop) :
    (nodeSites texts options tree node).Pairwise MappingSite.Precedes := by
  rcases nodeSites_cases texts options tree node with
    hnone | ⟨-, region, range, name, hregion, -, hsites | ⟨-, -, hsites⟩⟩
  · rw [hnone]
    exact .nil
  · rw [hsites]
    exact List.pairwise_singleton _ _
  · have := hfilled (by simp [hregion])
    rw [hsites, List.pairwise_pair]
    exact ⟨Nat.le_of_lt this, fun hkind => absurd hkind (by simp)⟩

/-- **Sites of an earlier node precede those of a later one.** -/
theorem precedes_of_lt {parent : Nat → Option Nat} {length : Nat}
    (hs : Spaced tree.targets [] length parent) (hn : tree.Numbered parent)
    (hfilled : ∀ node ∈ tree.nodes, node.source ≠ none → node.target.offset < node.target.stop)
    {i j : Nat} (hij : i < j) {a b : Node} (ha : tree.node? i = some a) (hb : tree.node? j = some b)
    {s t : MappingSite} (hsa : s ∈ nodeSites texts options tree a)
    (htb : t ∈ nodeSites texts options tree b) : s.Precedes t := by
  obtain ⟨rfl, hkept, hleaf⟩ := mem_nodeSites hsa
  obtain ⟨rfl, -, -⟩ := mem_nodeSites htb
  have hsource : ∀ {u : MappingSite}, u.IsIn tree → u.node.target.offset < u.node.target.stop := by
    rintro u ⟨hmem, region, range, hregion, -⟩
    exact hfilled u.node hmem (by simp [hregion])
  have hsfilled := hsource (isIn_of_mem_nodeSites (Array.mem_iff_getElem?.mpr ⟨i, ha⟩) hsa)
  have htfilled := hsource (isIn_of_mem_nodeSites (Array.mem_iff_getElem?.mpr ⟨j, hb⟩) htb)
  have hstart := hs.offset_lt hn hij ha hb hsfilled hkept
  unfold MappingSite.Precedes MappingSite.offset
  cases hsk : s.atStart with
  | true => cases htk : t.atStart <;> simp <;> omega
  | false =>
    have hstop := hs.stop_le_of_isLeaf hn hij ha hb (hleaf hsk).2
    cases htk : t.atStart <;> simp <;> omega

/-- **The sites of a tree stand in order.** -/
theorem pairwise_mappingSites {parent : Nat → Option Nat} {length : Nat}
    (hs : Spaced tree.targets [] length parent) (hn : tree.Numbered parent)
    (hfilled : ∀ node ∈ tree.nodes, node.source ≠ none → node.target.offset < node.target.stop)
    (hpreorder : tree.preorder = List.range tree.size) :
    (mappingSites texts options tree).Pairwise MappingSite.Precedes := by
  unfold mappingSites
  rw [List.pairwise_flatMap, hpreorder]
  constructor
  · -- inside one node, then between two nodes; the walk takes the nodes by number
    intro id _
    cases hnode : tree.node? id with
    | none => exact .nil
    | some node => exact pairwise_nodeSites (hfilled node (Array.mem_iff_getElem?.mpr ⟨id, hnode⟩))
  · refine List.pairwise_lt_range.imp ?_
    intro i j hij s hsi t htj
    cases ha : tree.node? i with
    | none =>
      rw [ha] at hsi
      exact absurd hsi List.not_mem_nil
    | some a =>
      cases hb : tree.node? j with
      | none =>
        rw [hb] at htj
        exact absurd htj List.not_mem_nil
      | some b =>
        rw [ha] at hsi
        rw [hb] at htj
        exact precedes_of_lt hs hn hfilled hij ha hb hsi htj

end

/-! ## The script of a module

In the script of a module no marked stretch is empty, so a node ends later than it begins. Offsets
that are places of the text become positions in the same order. -/

namespace Module

variable {m : Module}

/-- If its names are not empty, no construct of a module is written as nothing. -/
theorem offset_lt_stop (hnamed : m.Named) {node : Node} (hnode : node ∈ m.writer.finish.2.nodes)
    (hsource : node.source ≠ none) : node.target.offset < node.target.stop := by
  have houtline : (⟨node.source, node.target.offset, node.target.stop⟩ : Outline)
      ∈ outlines m.writer.finish.2.nodes :=
    List.mem_map_of_mem (Array.mem_toList_iff.mpr hnode)
  rw [writer, Writer.outlines_finish, List.mem_cons] at houtline
  rcases houtline with hroot | hmarked
  · exact absurd (Outline.mk.inj hroot).1 hsource
  · obtain ⟨part, hpart, start, hmarked⟩ := Fragment.mem_outlineAll hmarked
    exact (filled_fragments hnamed part hpart).outline_lt start _ hmarked

/-- The target of a node begins and stops at the positions of its byte offsets. -/
theorem isPlace_target {node : Node} (hnode : node ∈ m.writer.finish.2.nodes) :
    IsPlace m.writer.text.toList node.target.offset node.target.range.start
      ∧ IsPlace m.writer.text.toList node.target.stop node.target.range.stop := by
  have hplaced : (m.writer.close Tree.root).Placed :=
    (Writer.Placed.start.of_reaches m.reaches_writer).close Tree.root
  have hmem : node.target ∈ (m.writer.close Tree.root).targets :=
    List.mem_map_of_mem (Array.mem_toList_iff.mpr hnode)
  exact ⟨hplaced.starts _ hmem, hplaced.stops _ hmem⟩

/-- A site stands at its byte offset. -/
theorem isPlace_site {s : MappingSite} (h : s.IsIn m.writer.finish.2) :
    IsPlace m.writer.text.toList s.offset s.mapping.generated := by
  obtain ⟨hnode, region, range, -, -, hends⟩ := h
  obtain ⟨hstart, hstop⟩ := isPlace_target hnode
  unfold MappingSite.offset
  cases hkind : s.atStart with
  | true =>
    rw [hkind, if_pos rfl] at hends
    rw [if_pos rfl, hends.1]
    exact hstart
  | false =>
    rw [hkind, if_neg Bool.false_ne_true] at hends
    rw [if_neg Bool.false_ne_true, hends.2.1]
    exact hstop

/-- The visit of a trace goes through the numbers of its nodes in order. -/
theorem preorder_finish (m : Module) :
    m.writer.finish.2.preorder = List.range m.writer.finish.2.size := by
  obtain ⟨_, _, hopen⟩ := Writer.exists_spaced m.reaches_writer
  obtain ⟨parent, hn, -, hparents⟩ := Writer.exists_finished m.reaches_writer m.active_writer
  exact hn.visit_root_all (Writer.size_finish_pos hopen.origin) hparents (Nat.le_refl _)

/-- **The sites of a module come in the order of their generated positions**, and those of one kind
have different ones. -/
theorem pairwise_generated (hnamed : m.Named) (texts : Texts) (options : Options) :
    (mappingSites texts options m.writer.finish.2).Pairwise fun s t =>
      (compare s.mapping.generated t.mapping.generated).isLE = true
        ∧ (s.atStart = t.atStart → compare s.mapping.generated t.mapping.generated = .lt) := by
  obtain ⟨parent, hn, hs, -⟩ := Writer.exists_finished m.reaches_writer m.active_writer
  refine (pairwise_mappingSites hs hn (fun _ => offset_lt_stop hnamed)
    m.preorder_finish).imp_of_mem ?_
  intro s t hs ht hprecedes
  have hplace := isPlace_site (isIn_of_mem_mappingSites hs)
  have hplace' := isPlace_site (isIn_of_mem_mappingSites ht)
  exact ⟨hplace.compare_isLE hplace' hprecedes.1,
    fun hkind => hplace.compare_lt hplace' (hprecedes.2 hkind)⟩

end Module

/-- At most one member of a list has a property that never holds at both ends of a pair. -/
theorem countP_le_one {α : Type} {r : α → α → Prop} {p : α → Bool} {l : List α} (h : l.Pairwise r)
    (hp : ∀ a b, r a b → p a = true → p b = false) : l.countP p ≤ 1 := by
  induction h with
  | nil => exact Nat.zero_le 1
  | @cons a l hr _ ih =>
    cases ha : p a with
    | false =>
      rw [List.countP_cons_of_neg (by simp [ha])]
      exact ih
    | true =>
      have hrest : l.countP p = 0 := by
        rw [List.countP_eq_zero]
        intro b hb
        simp [hp a b (hr b hb) ha]
      exact Nat.le_of_eq (by rw [List.countP_cons_of_pos ha, hrest])

namespace MappingSite

/-- The site is of a kind and stands at a position. -/
def isAt (atStart : Bool) (p : Position) (s : MappingSite) : Bool :=
  s.atStart == atStart && s.mapping.generated == p

theorem isAt_iff {atStart : Bool} {p : Position} {s : MappingSite} :
    s.isAt atStart p = true ↔ s.atStart = atStart ∧ s.mapping.generated = p := by
  rw [isAt, Bool.and_eq_true, beq_iff_eq, beq_iff_eq]

theorem countP_generated (sites : List MappingSite) (p : Position) :
    (sites.map mapping).countP (·.generated == p)
      = sites.countP (isAt true p) + sites.countP (isAt false p) := by
  rw [List.countP_map, List.countP_eq_countP_filter_add sites _ atStart, List.countP_filter,
    List.countP_filter]
  congr 2
  · funext s
    simp [isAt, Bool.and_comm]
  · funext s
    simp [isAt, Bool.and_comm]

end MappingSite

theorem Module.countP_isAt_le_one {m : Module} (hnamed : m.Named) (texts : Texts)
    (options : Options) (atStart : Bool) (p : Position) :
    (mappingSites texts options m.writer.finish.2).countP (MappingSite.isAt atStart p) ≤ 1 := by
  -- two sites of one kind at one position would be in strict order, and no position is before
  -- itself
  refine countP_le_one (pairwise_generated hnamed texts options) ?_
  rintro s t ⟨-, hlt⟩ hs
  obtain ⟨hskind, hsplace⟩ := MappingSite.isAt_iff.mp hs
  by_contra ht
  obtain ⟨htkind, htplace⟩ := MappingSite.isAt_iff.mp (Bool.not_eq_false _ ▸ ht)
  have hself := hlt (hskind.trans htkind.symm)
  rw [hsplace, htplace, show compare p p = .eq from Std.ReflCmp.compare_self] at hself
  cases hself

/-- **The mappings of a script stand in order.** If no defined name and no parameter's name is
empty, the mappings come in the order of their generated positions. Without mappings of ends no two
of them have the same position. With them, at most two have: at most one that maps the start of a
node, and at most one that maps the end of a leaf. -/
theorem Document.mappings_in_order {d : Document} {uri : String} {options : Options}
    {generated : Generated} (h : d.generate uri options = .ok generated) (hnamed : d.module.Named) :
    (options.endMappings = false →
        generated.mappings.Pairwise fun a b => compare a.generated b.generated = .lt)
      ∧ (generated.mappings.Pairwise fun a b => (compare a.generated b.generated).isLE = true)
      ∧ ∃ (script : String) (tree : Tree) (sites : List MappingSite),
          d.module.lower options.maxDepth = .ok (script, tree)
            ∧ sites.map MappingSite.mapping = generated.mappings ∧ (∀ s ∈ sites, s.IsIn tree)
            ∧ ∀ p, sites.countP (MappingSite.isAt true p) ≤ 1
                ∧ sites.countP (MappingSite.isAt false p) ≤ 1
                ∧ generated.mappings.countP (·.generated == p) ≤ 2 := by
  obtain ⟨script, tree, hlower, rfl⟩ := exists_lower_of_generate h
  obtain rfl : tree = d.module.writer.finish.2 := by rw [Module.finish_writer_of_lower hlower]
  rw [mappings_assemble, mappingsOf, ← map_mappingSites]
  have hordered := Module.pairwise_generated hnamed (d.texts uri script) options
  refine ⟨?_, ?_, script, _, _, hlower, rfl, fun s => isIn_of_mem_mappingSites, ?_⟩
  · intro hends
    rw [List.pairwise_map]
    refine hordered.imp_of_mem ?_
    intro s t hs ht hst
    exact hst.2 ((atStart_of_mem_mappingSites hends hs).trans
      (atStart_of_mem_mappingSites hends ht).symm)
  · rw [List.pairwise_map]
    exact hordered.imp fun hst => hst.1
  · intro p
    -- a place has one start and one end at most, so two mappings in all
    have hstarts := Module.countP_isAt_le_one hnamed (d.texts uri script) options true p
    have hstops := Module.countP_isAt_le_one hnamed (d.texts uri script) options false p
    rw [MappingSite.countP_generated]
    exact ⟨hstarts, hstops, Nat.add_le_add hstarts hstops⟩

/-- The definition `DEF f(a): (a - b) ^ a;`, with ranges for all regions but that of `b`. -/
def Document.sited : Document :=
  ⟨some "DEF f(a): (a - b) ^ a;", none,
    [.definition ⟨"f", some ⟨4, 5, some ⟨⟨0, 4⟩, ⟨0, 5⟩⟩⟩,
      [⟨"a", some ⟨6, 7, some ⟨⟨0, 6⟩, ⟨0, 7⟩⟩⟩⟩],
      .binary .pow (some ⟨18, 19, some ⟨⟨0, 18⟩, ⟨0, 19⟩⟩⟩)
        (.binary .sub none (.call ⟨"a", some ⟨11, 12, some ⟨⟨0, 11⟩, ⟨0, 12⟩⟩⟩⟩ [] none)
          (.call ⟨"b", none⟩ [] (some ⟨15, 16, none⟩)) (some ⟨10, 17, some ⟨⟨0, 10⟩, ⟨0, 17⟩⟩⟩))
        (.call ⟨"a", none⟩ [] none) none, none⟩]⟩

theorem Document.named_sited : Document.sited.module.Named := by
  intro d hd
  obtain rfl := Statement.definition.inj (List.mem_singleton.mp hd)
  exact ⟨by simp, by simp⟩

theorem Document.generate_sited (ends : Bool) :
    ∃ generated, Document.sited.generate "a/b" { Options.default with endMappings := ends }
      = .ok generated
      ∧ generated.mappings = synthesize
          ⟨filenameOf "a/b", "DEF f(a): (a - b) ^ a;".toList, Document.sited.module.text⟩
          { Options.default with endMappings := ends } Document.sited.module.writer.finish.2 := by
  have hheight : Document.sited.module.height ≤ Options.defaultMaxDepth := by decide
  obtain ⟨generated, hgenerated⟩ := (Document.sited.generate_eq "a/b"
    { Options.default with endMappings := ends }).1 hheight
  obtain ⟨script, tree, hlower, rfl⟩ := exists_lower_of_generate hgenerated
  obtain ⟨rfl, rfl⟩ := Prod.mk.inj (Module.finish_writer_of_lower hlower)
  refine ⟨_, hgenerated, ?_⟩
  rw [mappings_assemble, mappingsOf, texts, Module.toList_writer]
  rfl

/-- Of the nine mappings five are of starts, which stand in strict order on their own. -/
theorem Document.mappings_in_order_sited :
    ∃ all starts, Document.sited.generate "a/b" Options.default = .ok all
      ∧ Document.sited.generate "a/b" { Options.default with endMappings := false } = .ok starts
      ∧ Document.sited.module.Named ∧ all.mappings.length = 9 ∧ starts.mappings.length = 5
      ∧ (starts.mappings.Pairwise fun a b => compare a.generated b.generated = .lt)
      ∧ (all.mappings.Pairwise fun a b => (compare a.generated b.generated).isLE = true)
      ∧ ∀ p, all.mappings.countP (·.generated == p) ≤ 2 := by
  obtain ⟨all, hall, hmappings⟩ := generate_sited true
  obtain ⟨starts, hstarts, hmappings'⟩ := generate_sited false
  obtain ⟨-, hordered, _, _, _, _, _, _, hcount⟩ := mappings_in_order hall named_sited
  refine ⟨all, starts, hall, hstarts, named_sited, ?_, ?_,
    (mappings_in_order hstarts named_sited).1 rfl, hordered, fun p => (hcount p).2.2⟩
  · rw [hmappings]
    decide +kernel
  · rw [hmappings']
    decide +kernel

end ArithScript
