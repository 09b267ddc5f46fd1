import ArithScript.Proofs.CollapsedNodes
import Mathlib.Data.Nat.Find

/-!
# The visit of a trace

The visit of a trace keeps a work list, and nothing in the list itself makes it get shorter: a node
is taken from it and the children of the node are put there instead. `Walks` is this loop with no
bound on its rounds. That it comes to an end is a fact about the trees that writers leave behind,
and it holds of all of them, also where scopes were left open, and where the root was closed and
nodes without a parent were opened after it.

The reason is the numbering. The numbers below the first node without a parent, other than the root,
are the nodes that can be reached from the root (`exists_reachable`), and the visit goes through
them as it would through a list.
-/

set_option autoImplicit false

namespace ArithScript.Trace

namespace Tree

/-- **The loop over a work list**, with no bound: the first node of the list is visited, and its
children take its place. A list that walks is one on which the loop comes to an end. -/
inductive Walks (tree : Tree) : List Nat → List Nat → Prop where
  | done : Walks tree [] []
  | visit {id : Nat} {pending visited : List Nat} :
    Walks tree (tree.children id ++ pending) visited → Walks tree (id :: pending) (id :: visited)

/-- A visit that has not used all its rounds has come to its end. -/
theorem walks_visit {tree : Tree} {rounds : Nat} {work : List Nat}
    (h : (tree.visit rounds work).length < rounds) : tree.Walks work (tree.visit rounds work) := by
  induction rounds generalizing work with
  | zero => exact absurd h (Nat.not_lt_zero _)
  | succ rounds ih =>
    cases work with
    | nil => exact .done
    | cons id pending =>
      rw [visit] at h ⊢
      exact .visit (ih (Nat.lt_of_succ_lt_succ h))

namespace Numbered

variable {tree : Tree} {parent : Nat → Option Nat}

/-- No node has its parent on the other side of a node without a parent. -/
theorem lt_of_parent_eq_none (h : tree.Numbered parent) {m j p : Nat} (hm : parent m = none)
    (hj : parent j = some p) (hp : p < m) : j < m := by
  by_contra hle
  obtain ⟨q, hq, _⟩ := h.encloses_parent j p hj m hp (Nat.le_of_not_lt hle)
  rw [hm] at hq
  cases hq

/-- **The nodes below the root come first.** There is a number up to which every node but the root
has a parent, and no later node has one among them: the first node without a parent, or else the
number of nodes. -/
theorem exists_reachable (h : tree.Numbered parent) (hpos : 0 < tree.size) :
    ∃ m, 0 < m ∧ m ≤ tree.size ∧ (∀ i, 0 < i → i < m → ∃ q, parent i = some q)
      ∧ ∀ j p, parent j = some p → p < m → j < m := by
  have hexists : ∃ m, 0 < m ∧ (m < tree.size → parent m = none) :=
    ⟨tree.size, hpos, fun hlt => absurd hlt (Nat.lt_irrefl _)⟩
  obtain ⟨hmpos, hmnone⟩ := Nat.find_spec hexists
  have hle : Nat.find hexists ≤ tree.size :=
    Nat.find_min' hexists ⟨hpos, fun hlt => absurd hlt (Nat.lt_irrefl _)⟩
  refine ⟨Nat.find hexists, hmpos, hle, fun i hi him => ?_, fun j p hj hp => ?_⟩
  · by_contra hnone
    refine Nat.find_min hexists him ⟨hi, fun _ => ?_⟩
    exact Option.eq_none_iff_forall_ne_some.mpr fun q hq => hnone ⟨q, hq⟩
  · have hjsize := (h.parent_lt j p hj).2
    rcases Nat.lt_or_eq_of_le hle with hlt | heq
    · exact h.lt_of_parent_eq_none (hmnone hlt) hj hp
    · rw [heq]
      exact hjsize

/-- Those nodes are the ones that can be reached from the root. -/
theorem reachable_iff (h : tree.Numbered parent) {m : Nat} (hpos : 0 < m)
    (hbelow : ∀ i, 0 < i → i < m → ∃ q, parent i = some q)
    (hclosed : ∀ j p, parent j = some p → p < m → j < m) (id : Nat) :
    Relation.ReflTransGen tree.IsChild root id ↔ id < m := by
  constructor
  · intro hreach
    induction hreach with
    | refl => exact hpos
    | tail _ hchild ih => exact hclosed _ _ (h.isChild_iff.mp hchild) ih
  · -- by induction on the number, since a parent has a smaller one
    induction id using Nat.strongRecOn with
    | ind id ih =>
      intro hid
      rcases Nat.eq_zero_or_pos id with rfl | hidpos
      · exact .refl
      · obtain ⟨q, hq⟩ := hbelow id hidpos hid
        have hlt := (h.parent_lt id q hq).1
        exact (ih q hlt (Nat.lt_trans hlt hid)).tail (h.isChild_iff.mpr hq)

end Numbered

theorem mappingsAt_eq (texts : Texts) (options : Options) (tree : Tree) :
    mappingsAt texts options tree
      = fun id => tree.nodes.toList[id]?.toList.flatMap (nodeMappings texts options tree) := by
  funext id
  rw [mappingsAt, node?, Array.getElem?_toList]
  cases tree.nodes[id]? with
  | none => rfl
  | some node => exact (List.flatMap_singleton (nodeMappings texts options tree) node).symm

theorem flatMap_range_getElem? {α β : Type} (g : α → List β) (xs : List α) :
    (List.range xs.length).flatMap (fun i => xs[i]?.toList.flatMap g) = xs.flatMap g := by
  induction xs with
  | nil => rfl
  | cons x xs ih =>
    rw [List.length_cons, List.range_succ_eq_map, List.flatMap_cons, List.flatMap_cons,
      List.flatMap_map]
    simp only [List.getElem?_cons_succ, ih]
    simp

/-- Going through all numbers is going through the nodes. -/
theorem flatMap_mappingsAt_range (texts : Texts) (options : Options) (tree : Tree) :
    (List.range tree.size).flatMap (mappingsAt texts options tree)
      = tree.nodes.toList.flatMap (nodeMappings texts options tree) := by
  rw [mappingsAt_eq, size, ← Array.length_toList]
  exact flatMap_range_getElem? _ _

end Tree

/-- A run that has not closed the root leaves no node without a parent but the root. -/
theorem Writer.Numbered.exists_parent {w : Writer} {parent : Nat → Option Nat}
    (h : w.Numbered parent) (hroot : Tree.root ∈ w.active) {j : Nat} (hpos : 0 < j)
    (hj : j < w.nodes.size) :
    ∃ q, parent j = some q := by
  obtain ⟨q, hq, -⟩ := h.encloses_active Tree.root hroot j hj j hpos (Nat.le_refl j)
  exact ⟨q, hq⟩

/-- **The visit of a trace is a scan.** Take any program of appends, opens, closes, traced parts,
joins and conditional parts that closes no node out of order. It may leave nodes open, and it may
close the root and go on. On the finished tree the loop over the work list comes to an end, having
visited the nodes that can be reached from the root and no others, each once and in ascending order.
If the root was not closed these are all nodes, so that the mappings of the tree are those of its
nodes one after the other. -/
theorem visit_scans_nodes {steps : List Step} {w : Writer} {log : List LogEntry}
    (h : runLogged steps = (some w, log)) :
    w.finish.2.Walks [Tree.root] w.finish.2.preorder
      ∧ w.finish.2.preorder.Pairwise (· < ·)
      ∧ (∀ id, id ∈ w.finish.2.preorder
          ↔ id < w.finish.2.size ∧ Relation.ReflTransGen w.finish.2.IsChild Tree.root id)
      ∧ (Tree.root ∈ w.active →
          w.finish.2.preorder = List.range w.finish.2.size
          ∧ ∀ texts options, synthesize texts options w.finish.2
              = w.finish.2.nodes.toList.flatMap (nodeMappings texts options w.finish.2)) := by
  obtain ⟨parent, hn, hs⟩ := Writer.exists_spaced (runLogged_reaches h).1
  have htree : w.finish.2.Numbered parent := (hn.close Tree.root).tree
  have hpos := Writer.size_finish_pos hs.origin
  obtain ⟨m, hmpos, hm, hbelow, hclosed⟩ := htree.exists_reachable hpos
  have hvisit : ∀ rounds, m ≤ rounds → w.finish.2.visit rounds [Tree.root] = List.range m :=
    fun rounds hrounds => htree.visit_root hmpos hm hbelow hclosed hrounds
  have hpreorder : w.finish.2.preorder = List.range m := hvisit _ hm
  refine ⟨?_, ?_, fun id => ?_, fun hroot => ?_⟩
  · -- one round more than needed shows that the loop is over
    have hmore := hvisit (m + 1) (Nat.le_succ m)
    have hended : (w.finish.2.visit (m + 1) [Tree.root]).length < m + 1 := by
      rw [hmore, List.length_range]
      exact Nat.lt_succ_self m
    have hwalks := Tree.walks_visit hended
    rwa [hmore, ← hpreorder] at hwalks
  · rw [hpreorder]
    exact List.pairwise_lt_range
  · rw [hpreorder, List.mem_range, htree.reachable_iff hmpos hbelow hclosed]
    exact ⟨fun hid => ⟨Nat.lt_of_lt_of_le hid hm, hid⟩, fun hid => hid.2⟩
  · have hall : w.finish.2.preorder = List.range w.finish.2.size :=
      htree.visit_root_all hpos (fun j hj hjsize => hn.exists_parent hroot hj (by
        rw [← Writer.size_close Tree.root w]
        exact hjsize)) (Nat.le_refl _)
    refine ⟨hall, fun texts options => ?_⟩
    rw [synthesize_eq_flatMap, hall, Tree.flatMap_mappingsAt_range]

/-- A program that closes the root and then opens two more nodes, one of which it leaves open. -/
def rootlessSteps : List Step :=
  [.traced (some ⟨0, 3, none⟩) [.append "a", .traced (some ⟨1, 2, none⟩) [.append "b"]],
    .close (some Tree.root), .openNode (some ⟨3, 9, none⟩), .append "c",
    .traced (some ⟨4, 5, none⟩) [.append "d"]]

/-- A program that leaves two nodes open, the inner one with two children. -/
def unclosedSteps : List Step :=
  [.openNode (some ⟨0, 9, none⟩), .append "a", .openNode (some ⟨1, 8, none⟩),
    .traced (some ⟨1, 2, none⟩) [.append "b"], .traced (some ⟨3, 4, none⟩) []]

theorem visit_scans_nodes_rootless_open :
    (∃ w log, runLogged rootlessSteps = (some w, log) ∧ w.active = [3] ∧ w.finish.2.size = 5
      ∧ w.finish.2.preorder = [0, 1, 2] ∧ w.finish.2.Walks [Tree.root] [0, 1, 2]
      ∧ ¬ Relation.ReflTransGen w.finish.2.IsChild Tree.root 4)
    ∧ ∃ w log, runLogged unclosedSteps = (some w, log) ∧ w.active = [2, 1, 0]
      ∧ w.finish.2.preorder = [0, 1, 2, 3, 4]
      ∧ ∀ texts options, synthesize texts options w.finish.2
          = w.finish.2.nodes.toList.flatMap (nodeMappings texts options w.finish.2) := by
  have hrootless := visit_scans_nodes (show runLogged rootlessSteps = (some _, _) from rfl)
  have hopen := visit_scans_nodes (show runLogged unclosedSteps = (some _, _) from rfl)
  refine ⟨⟨_, _, rfl, rfl, rfl, rfl, hrootless.1, fun hreach => ?_⟩,
    ⟨_, _, rfl, rfl, (hopen.2.2.2 (by decide)).1, (hopen.2.2.2 (by decide)).2⟩⟩
  have hvisited := (hrootless.2.2.1 4).mpr ⟨by decide, hreach⟩
  exact absurd hvisited (by decide)

end ArithScript.Trace
