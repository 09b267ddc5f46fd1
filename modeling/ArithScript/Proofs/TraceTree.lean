import ArithScript.Proofs.NodeNumbering
import ArithScript.Proofs.WriterPositions
import Mathlib.Data.List.Nodup

/-!
# Trace trees are trees of stretches

What a trace tree looks like when the writing is over (`Tree.WellFormed`): each node covers the
nodes below it, siblings follow one another, every node but the root has one parent, and the numbers
of the nodes are those of a visit from the root.

While nodes are open their targets end too early, so none of this can be said of them yet.
`Spaced` says what can: a node that is closed covers the nodes it encloses, and it ends before the
nodes it does not enclose begin. A node that is open has only its beginning, and closing it sets its
end behind everything. Failures inside a program make no difference, because nothing is undone.
-/

set_option autoImplicit false

namespace ArithScript.Trace

open Text

namespace Tree

/-- The targets of the nodes, by number. -/
def targets (tree : Tree) : List Target := tree.nodes.toList.map Node.target

theorem getElem?_targets (tree : Tree) (i : Nat) :
    tree.targets[i]? = (tree.node? i).map Node.target := by
  simp [targets, node?]

theorem getElem?_targets_of_node? {tree : Tree} {i : Nat} {node : Node}
    (h : tree.node? i = some node) : tree.targets[i]? = some node.target := by
  rw [getElem?_targets, h]
  rfl

/-- One node is listed under another. -/
def IsChild (tree : Tree) (p j : Nat) : Prop := j ∈ tree.children p

/-- **The nodes of a trace tree lie in its text as in a tree.** -/
structure WellFormed (tree : Tree) (text : List Char) : Prop where
  /-- The root stands for the whole text. -/
  root : ∃ node, tree.node? Tree.root = some node
    ∧ node.target.offset = 0 ∧ node.target.stop = byteLength text
  /-- A target is a stretch between two places of the text. -/
  bounds : ∀ node ∈ tree.nodes, node.target.offset ≤ node.target.stop
    ∧ isBoundary text node.target.offset = true ∧ isBoundary text node.target.stop = true
  /-- A node covers the nodes below it, at any depth. -/
  contains : ∀ a d outer inner, Relation.TransGen tree.IsChild a d →
    tree.node? a = some outer → tree.node? d = some inner →
    outer.target.contains inner.target = true
  /-- Siblings do not overlap, and stand in the order of the text. -/
  siblings : ∀ p i a b left right, (tree.children p)[i]? = some a →
    (tree.children p)[i + 1]? = some b → tree.node? a = some left → tree.node? b = some right →
    left.target.stop ≤ right.target.offset
  /-- Children are nodes other than the root. -/
  children : ∀ p j, tree.IsChild p j → j ≠ Tree.root ∧ j < tree.size
  /-- Every node but the root has one parent, which is an earlier node and lists it once. -/
  parents : ∀ j, j ≠ Tree.root → j < tree.size →
    ∃ p, p < j ∧ (tree.children p).count j = 1 ∧ ∀ q, tree.IsChild q j → q = p
  /-- The visit from the root lists the numbers in order, and is over when it has. -/
  preorder : ∀ rounds, tree.size ≤ rounds → tree.visit rounds [Tree.root] = List.range tree.size

end Tree

/-- **Targets along a numbering**, of which those of the `active` nodes are not ended: they begin in
the order of the numbers; a node that does not enclose a later one ends before that one begins; and
one that does covers it, once it is ended. -/
structure Spaced (targets : List Target) (active : List Nat) (length : Nat)
    (parent : Nat → Option Nat) : Prop where
  origin : ∃ t, targets[0]? = some t ∧ t.offset = 0
  ordered : ∀ (i : Nat) (t : Target), targets[i]? = some t → t.offset ≤ t.stop ∧ t.stop ≤ length
  ascending : ∀ (i j : Nat) (s t : Target), i < j → targets[i]? = some s → targets[j]? = some t →
    s.offset ≤ t.offset
  apart : ∀ (i j : Nat) (s t : Target), i < j → targets[i]? = some s → targets[j]? = some t →
    ¬ Encloses parent i j → i ∉ active ∧ s.stop ≤ t.offset
  inside : ∀ (i j : Nat) (s t : Target), i < j → targets[i]? = some s → targets[j]? = some t →
    Encloses parent i j → i ∉ active → t.stop ≤ s.stop

namespace Writer

variable {w : Writer} {parent : Nat → Option Nat}

theorem getElem?_targets_openNode {region : Region} {j : Nat} {t : Target}
    (h : (w.openNode region).targets[j]? = some t) :
    (j < w.nodes.size ∧ w.targets[j]? = some t)
      ∨ (j = w.nodes.size ∧ t = Target.point w.length w.position) := by
  rw [targets_openNode] at h
  have hlength := w.length_targets
  rcases Nat.lt_trichotomy j w.nodes.size with hj | rfl | hj
  · rw [List.getElem?_append_left (by omega)] at h
    exact Or.inl ⟨hj, h⟩
  · rw [List.getElem?_append_right (by omega), hlength, Nat.sub_self] at h
    exact Or.inr ⟨rfl, (Option.some.inj h).symm⟩
  · rw [List.getElem?_eq_none (by simp; omega)] at h
    cases h

theorem getElem?_targets_close {id j : Nat} {t : Target}
    (h : (w.close id).targets[j]? = some t) :
    ∃ s, w.targets[j]? = some s ∧ t.offset = s.offset
      ∧ t.stop = if j = id then w.length else s.stop := by
  rw [targets_close, List.getElem?_modify, Option.map_eq_map, Option.map_eq_some_iff] at h
  obtain ⟨s, hs, rfl⟩ := h
  refine ⟨s, hs, ?_⟩
  by_cases hj : j = id
  · subst hj
    simp [Target.endAt]
  · simp [hj, Ne.symm hj]

theorem spaced_start : Spaced Writer.start.targets Writer.start.active Writer.start.length
    fun _ => none := by
  have hsingle : ∀ (i : Nat) (t : Target), Writer.start.targets[i]? = some t →
      i = 0 ∧ t = Target.point 0 Position.zero := by
    intro i t ht
    cases i with
    | zero => exact ⟨rfl, (Option.some.inj ht).symm⟩
    | succ i => cases ht
  refine ⟨⟨_, rfl, rfl⟩, ?_, ?_, ?_, ?_⟩
  · intro i t ht
    obtain ⟨rfl, rfl⟩ := hsingle i t ht
    exact ⟨Nat.le_refl _, Nat.le_refl _⟩
  all_goals
    intro i j s t hij hs ht
    have := (hsingle j t ht).1
    omega

theorem spaced_append (h : Spaced w.targets w.active w.length parent) (s : String) :
    Spaced (w.append s).targets (w.append s).active (w.append s).length parent := by
  refine ⟨h.origin, ?_, h.ascending, h.apart, h.inside⟩
  intro i t ht
  have := h.ordered i t ht
  rw [length_append]
  omega

theorem spaced_openNode (hn : w.Numbered parent) (h : Spaced w.targets w.active w.length parent)
    (region : Region) :
    Spaced (w.openNode region).targets (w.openNode region).active (w.openNode region).length
      (parentWith parent w.nodes.size w.active.head?) := by
  have hopened := hn.openNode region
  constructor
  case origin =>
    obtain ⟨t, ht, hzero⟩ := h.origin
    refine ⟨t, ?_, hzero⟩
    rw [targets_openNode, List.getElem?_append_left (List.getElem?_eq_some_iff.mp ht).1]
    exact ht
  case ordered =>
    intro i t ht
    rcases getElem?_targets_openNode ht with ⟨_, ht⟩ | ⟨_, rfl⟩
    · exact h.ordered i t ht
    · exact ⟨Nat.le_refl _, Nat.le_refl _⟩
  case ascending =>
    intro i j s t hij hs ht
    rcases getElem?_targets_openNode hs with ⟨_, hs⟩ | ⟨rfl, rfl⟩
    · rcases getElem?_targets_openNode ht with ⟨_, ht⟩ | ⟨_, rfl⟩
      · exact h.ascending i j s t hij hs ht
      · exact Nat.le_trans (h.ordered i s hs).1 (h.ordered i s hs).2
    · rcases getElem?_targets_openNode ht with ⟨hj, _⟩ | ⟨rfl, _⟩ <;> omega
  case apart =>
    intro i j s t hij hs ht hnot
    rcases getElem?_targets_openNode ht with ⟨hj, ht⟩ | ⟨rfl, rfl⟩
    · rcases getElem?_targets_openNode hs with ⟨hi, hs⟩ | ⟨rfl, _⟩
      · obtain ⟨hclosed, hstop⟩ := h.apart i j s t hij hs ht fun he =>
          hnot ((encloses_parentWith _ hj).mpr he)
        refine ⟨?_, hstop⟩
        rw [active_openNode, List.mem_cons, not_or]
        exact ⟨Nat.ne_of_lt hi, hclosed⟩
      · omega
    · -- what does not enclose the new node is closed, so it has ended by now
      have hopen : i ∉ (w.openNode region).active := fun hmem =>
        hnot (hopened.encloses_active i hmem _ (by simp))
      rcases getElem?_targets_openNode hs with ⟨_, hs⟩ | ⟨rfl, _⟩
      · exact ⟨hopen, (h.ordered i s hs).2⟩
      · omega
  case inside =>
    intro i j s t hij hs ht hencloses hclosed
    rcases getElem?_targets_openNode ht with ⟨hj, ht⟩ | ⟨rfl, rfl⟩
    · rcases getElem?_targets_openNode hs with ⟨_, hs⟩ | ⟨rfl, _⟩
      · refine h.inside i j s t hij hs ht ((encloses_parentWith _ hj).mp hencloses) ?_
        intro hmem
        exact hclosed (List.mem_cons_of_mem _ hmem)
      · omega
    · -- and what encloses it is open
      exact absurd (hopened.active_of_encloses _ List.mem_cons_self i hij hencloses) hclosed

theorem spaced_close (hn : w.Numbered parent) (h : Spaced w.targets w.active w.length parent)
    {id : Nat} (hid : w.active.head? = some id) :
    Spaced (w.close id).targets (w.close id).active (w.close id).length parent := by
  have hmem : id ∈ w.active := Numbered.head_mem hid
  have hactive : ∀ {i : Nat}, i ∉ w.active.tail → i ≠ id → i ∉ w.active := by
    intro i htail hne hin
    cases hstack : w.active with
    | nil => simp [hstack] at hin
    | cons p rest =>
      rw [hstack] at hin hid htail
      rcases List.mem_cons.mp hin with rfl | hin
      · exact hne (by simpa using hid)
      · exact htail hin
  constructor
  case origin =>
    obtain ⟨s, hs, hzero⟩ := h.origin
    have hlt : 0 < (w.close id).targets.length := by
      have := (List.getElem?_eq_some_iff.mp hs).1
      simpa using this
    have ht := List.getElem?_eq_getElem hlt
    obtain ⟨s', hs', hoffset, _⟩ := getElem?_targets_close ht
    rw [hs] at hs'
    cases hs'
    exact ⟨_, ht, hoffset.trans hzero⟩
  case ordered =>
    intro i t ht
    obtain ⟨s, hs, hoffset, hstop⟩ := getElem?_targets_close ht
    have hs := h.ordered i s hs
    rw [hoffset, hstop, length_close]
    split <;> omega
  case ascending =>
    intro i j s t hij hs ht
    obtain ⟨s, hs, hoffset, _⟩ := getElem?_targets_close hs
    obtain ⟨t, ht, hoffset', _⟩ := getElem?_targets_close ht
    rw [hoffset, hoffset']
    exact h.ascending i j s t hij hs ht
  case apart =>
    intro i j s t hij hs ht hnot
    obtain ⟨s, hs, _, hstop⟩ := getElem?_targets_close hs
    obtain ⟨t, ht, hoffset, _⟩ := getElem?_targets_close ht
    obtain ⟨hclosed, hle⟩ := h.apart i j s t hij hs ht hnot
    have hne : i ≠ id := fun heq => hclosed (heq ▸ hmem)
    rw [hstop, if_neg hne, hoffset]
    exact ⟨fun hin => hclosed (List.mem_of_mem_tail hin), hle⟩
  case inside =>
    intro i j s t hij hs ht hencloses hclosed
    obtain ⟨s, hs, _, hstop⟩ := getElem?_targets_close hs
    obtain ⟨t, ht, _, hstop'⟩ := getElem?_targets_close ht
    rw [hstop, hstop']
    by_cases hi : i = id
    · -- the closed node ends behind everything
      have hj : j ≠ id := by omega
      rw [if_pos hi, if_neg hj]
      exact (h.ordered j t ht).2
    · have hinactive := hactive hclosed hi
      -- a node that was closed before does not enclose the one that is closed now
      have hj : j ≠ id := by
        rintro rfl
        exact hinactive (hn.active_of_encloses j hmem i hij hencloses)
      rw [if_neg hi, if_neg hj]
      exact h.inside i j s t hij hs ht hencloses hinactive

/-- **At every moment of a run** the nodes are numbered along a tree, and their targets are spaced
along it. -/
theorem exists_spaced (h : Writer.start.Reaches w) :
    ∃ parent, w.Numbered parent ∧ Spaced w.targets w.active w.length parent := by
  refine h.invariant
    (P := fun w => ∃ parent, w.Numbered parent ∧ Spaced w.targets w.active w.length parent) ?_
    ⟨_, Numbered.start, spaced_start⟩
  rintro u u' hmove ⟨parent, hn, hs⟩
  cases hmove with
  | append s u => exact ⟨parent, hn.append s, spaced_append hs s⟩
  | openNode region u => exact ⟨_, hn.openNode region, spaced_openNode hn hs region⟩
  | close hhead => exact ⟨parent, hn.close _, spaced_close hn hs hhead⟩

end Writer

/-! ## Finished trees

When all nodes but the root are closed, and the root is closed at the end of the text, what was said
of closed nodes holds of all. -/

namespace Tree.Numbered

variable {tree : Tree} {parent : Nat → Option Nat}

theorem isChild_iff (h : tree.Numbered parent) {p j : Nat} :
    tree.IsChild p j ↔ parent j = some p := by
  rw [IsChild, h.children, List.mem_filter, List.mem_range, decide_eq_true_eq]
  exact ⟨fun hj => hj.2, fun hj => ⟨(h.parent_lt j p hj).2, hj⟩⟩

theorem ascending_children (h : tree.Numbered parent) (p : Nat) :
    (tree.children p).Pairwise (· < ·) := by
  rw [h.children]
  exact List.pairwise_lt_range.filter _

theorem encloses_descendant (h : tree.Numbered parent) {a d : Nat}
    (hd : Relation.TransGen tree.IsChild a d) : a < d ∧ Encloses parent a d := by
  induction hd with
  | single hchild =>
    have hparent := h.isChild_iff.mp hchild
    exact ⟨(h.parent_lt _ _ hparent).1, h.encloses_parent _ _ hparent⟩
  | tail _ hchild ih =>
    have hparent := h.isChild_iff.mp hchild
    have hlt := (h.parent_lt _ _ hparent).1
    exact ⟨Nat.lt_trans ih.1 hlt, ih.2.trans (h.encloses_parent _ _ hparent) (Nat.le_of_lt ih.1)⟩

/-- A node does not enclose its later siblings. -/
theorem not_encloses_sibling (h : tree.Numbered parent) {p a b : Nat} (ha : tree.IsChild p a)
    (hb : tree.IsChild p b) (hab : a < b) : ¬ Encloses parent a b := by
  intro hencloses
  obtain ⟨q, hq, haq⟩ := hencloses b hab (Nat.le_refl b)
  rw [h.isChild_iff.mp hb] at hq
  cases hq
  have := (h.parent_lt a p (h.isChild_iff.mp ha)).1
  omega

/-- Every number with a parent is listed once, under that parent and no other. -/
theorem listed_once (h : tree.Numbered parent) {j p : Nat} (hp : parent j = some p) :
    p < j ∧ (tree.children p).count j = 1 ∧ ∀ q, tree.IsChild q j → q = p := by
  refine ⟨(h.parent_lt j p hp).1, ?_, ?_⟩
  · have hnodup : (tree.children p).Nodup :=
      (h.ascending_children p).imp fun hlt => Nat.ne_of_lt hlt
    exact List.count_eq_one_of_mem hnodup (h.isChild_iff.mpr hp)
  · intro q hq
    rw [h.isChild_iff, hp] at hq
    exact (Option.some.inj hq).symm

/-- If every number but the root's has a parent, the visit from the root lists all numbers. -/
theorem visit_root_all (h : tree.Numbered parent) (hpos : 0 < tree.size)
    (hparents : ∀ j, root < j → j < tree.size → ∃ q, parent j = some q) {rounds : Nat}
    (hrounds : tree.size ≤ rounds) : tree.visit rounds [root] = List.range tree.size :=
  h.visit_root hpos (Nat.le_refl _) hparents (fun j p hp _ => (h.parent_lt j p hp).2) hrounds

end Tree.Numbered

namespace Spaced

variable {tree : Tree} {parent : Nat → Option Nat} {length : Nat}

/-- A closed node covers the nodes below it. -/
theorem contains (h : Spaced tree.targets [] length parent) (hn : tree.Numbered parent) {a d : Nat}
    {outer inner : Node} (hd : Relation.TransGen tree.IsChild a d)
    (houter : tree.node? a = some outer) (hinner : tree.node? d = some inner) :
    outer.target.contains inner.target = true := by
  obtain ⟨hlt, hencloses⟩ := hn.encloses_descendant hd
  have houter := Tree.getElem?_targets_of_node? houter
  have hinner := Tree.getElem?_targets_of_node? hinner
  have hstart := h.ascending a d _ _ hlt houter hinner
  have hstop := h.inside a d _ _ hlt houter hinner hencloses List.not_mem_nil
  simp [Target.contains, hstart, hstop]

/-- A closed node ends before its next sibling begins. -/
theorem siblings (h : Spaced tree.targets [] length parent) (hn : tree.Numbered parent)
    {p i a b : Nat} {left right : Node} (ha : (tree.children p)[i]? = some a)
    (hb : (tree.children p)[i + 1]? = some b) (hleft : tree.node? a = some left)
    (hright : tree.node? b = some right) : left.target.stop ≤ right.target.offset := by
  have hlt : a < b := by
    obtain ⟨hi, rfl⟩ := List.getElem?_eq_some_iff.mp ha
    obtain ⟨hj, rfl⟩ := List.getElem?_eq_some_iff.mp hb
    exact List.pairwise_iff_getElem.mp (hn.ascending_children p) i (i + 1) hi hj
      (Nat.lt_succ_self i)
  have hnot := hn.not_encloses_sibling (List.mem_of_getElem? ha) (List.mem_of_getElem? hb) hlt
  exact (h.apart a b _ _ hlt (Tree.getElem?_targets_of_node? hleft)
    (Tree.getElem?_targets_of_node? hright) hnot).2

end Spaced

namespace Writer

variable {w : Writer}

/-- **A finished tree.** When only the root is left open at the end, the tree is numbered and spaced
with no node open, and every node but the root has a parent. -/
theorem exists_finished (h : Writer.start.Reaches w) (hactive : w.active = [Tree.root]) :
    ∃ parent, w.finish.2.Numbered parent ∧ Spaced w.finish.2.targets [] w.length parent
      ∧ ∀ j, Tree.root < j → j < w.finish.2.size → ∃ q, parent j = some q := by
  obtain ⟨parent, hn, hs⟩ := exists_spaced h
  have hhead : w.active.head? = some Tree.root := by rw [hactive]; rfl
  refine ⟨parent, (hn.close Tree.root).tree, ?_, ?_⟩
  · have hclosed := spaced_close hn hs hhead
    rw [active_close, hactive] at hclosed
    exact hclosed
  · intro j hpos hj
    have hj : j < w.nodes.size := by
      rw [← size_close Tree.root w]
      exact hj
    obtain ⟨q, hq, _⟩ :=
      hn.encloses_active Tree.root (Numbered.head_mem hhead) j hj j hpos (Nat.le_refl j)
    exact ⟨q, hq⟩

theorem finish_root (hs : ∃ t, w.targets[0]? = some t ∧ t.offset = 0) :
    ∃ node, w.finish.2.node? Tree.root = some node
      ∧ node.target.offset = 0 ∧ node.target.stop = w.length := by
  obtain ⟨t, ht, hzero⟩ := hs
  have htarget : (w.close Tree.root).tree.targets[0]? = some (t.endAt w.length w.position) := by
    show (w.close Tree.root).targets[0]? = _
    rw [targets_close, List.getElem?_modify, ht]
    rfl
  rw [Tree.getElem?_targets, Option.map_eq_some_iff] at htarget
  obtain ⟨node, hnode, htarget⟩ := htarget
  refine ⟨node, hnode, ?_, ?_⟩
  · rw [htarget]
    exact hzero
  · rw [htarget]
    rfl

theorem size_finish_pos (hs : ∃ t, w.targets[0]? = some t ∧ t.offset = 0) :
    0 < w.finish.2.size := by
  obtain ⟨node, hnode, _⟩ := finish_root hs
  exact (Array.getElem?_eq_some_iff.mp hnode).1

/-- The targets of a finished tree lie between places of its text. -/
theorem finish_bounds (h : Writer.start.Reaches w) {node : Node} (hnode : node ∈ w.finish.2.nodes) :
    isBoundary w.finish.1.toList node.target.offset = true
      ∧ isBoundary w.finish.1.toList node.target.stop = true := by
  have hplaced : (w.close Tree.root).Placed := (Placed.start.of_reaches h).close Tree.root
  have hmem : node.target ∈ (w.close Tree.root).targets :=
    List.mem_map_of_mem (Array.mem_toList_iff.mpr hnode)
  exact ⟨(hplaced.starts _ hmem).isBoundary, (hplaced.stops _ hmem).isBoundary⟩

end Writer

/-- **A trace tree is a tree of stretches of its text.** Take any program of appends, opens, closes,
traced parts, joins and conditional parts, nested in any way and with callbacks that succeed or
fail, that closes no node out of order. If in the end exactly the root is open, that is, every
opened node was closed and the root was not, then the finished tree is well-formed. -/
theorem wellFormed_runLogged {steps : List Step} {w : Writer} {log : List LogEntry}
    (h : runLogged steps = (some w, log)) (hactive : w.active = [Tree.root]) :
    w.finish.2.WellFormed w.finish.1.toList := by
  have hreaches := (runLogged_reaches h).1
  -- the spacing before the close places the root, the spacing after it all else
  obtain ⟨_, _, hopen⟩ := Writer.exists_spaced hreaches
  obtain ⟨parent, hn, hs, hparents⟩ := Writer.exists_finished hreaches hactive
  constructor
  case root =>
    have hroot := Writer.finish_root hopen.origin
    rw [← w.byteLength_text] at hroot
    exact hroot
  case bounds =>
    intro node hnode
    obtain ⟨i, hi⟩ := Array.mem_iff_getElem?.mp hnode
    exact ⟨(hs.ordered i _ (Tree.getElem?_targets_of_node? hi)).1,
      Writer.finish_bounds hreaches hnode⟩
  case contains =>
    intro a d outer inner hd houter hinner
    exact hs.contains hn hd houter hinner
  case siblings =>
    intro p i a b left right ha hb hleft hright
    exact hs.siblings hn ha hb hleft hright
  case children =>
    intro p j hchild
    obtain ⟨hpj, hj⟩ := hn.parent_lt j p (hn.isChild_iff.mp hchild)
    exact ⟨Nat.ne_of_gt (Nat.zero_lt_of_lt hpj), hj⟩
  case parents =>
    intro j hroot hj
    obtain ⟨p, hp⟩ := hparents j (Nat.pos_of_ne_zero hroot) hj
    exact ⟨p, hn.listed_once hp⟩
  case preorder =>
    intro rounds hrounds
    exact hn.visit_root_all (Writer.size_finish_pos hopen.origin) hparents hrounds

/-- Nodes opened by hand and by steps, one of them empty, around a join whose second callback fails
inside a node. -/
def closedSteps : List Step :=
  [.append "é", .openNode (some ⟨0, 9, none⟩),
    .traced (some ⟨1, 8, none⟩) [
      .joinEach ", " [([.traced (some ⟨1, 2, none⟩) [.append "x"]], true),
        ([.traced (some ⟨3, 4, none⟩) [.append "("]], false), ([.append "y"], true)]],
    .runIf true [.traced (some ⟨5, 5, none⟩) []] true, .close (some 1)]

theorem wellFormed_runLogged_closedSteps :
    ∃ w log, runLogged closedSteps = (some w, log) ∧ w.active = [Tree.root]
      ∧ w.text = "éx, (" ∧ w.finish.2.size = 6
      ∧ w.finish.2.WellFormed w.finish.1.toList := by
  have hformed := wellFormed_runLogged (show runLogged closedSteps = (some _, _) from rfl) rfl
  exact ⟨_, _, rfl, rfl, rfl, rfl, hformed⟩

end ArithScript.Trace
