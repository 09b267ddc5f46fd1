import ArithScript.Proofs.WriterRuns
import ArithScript.SourceMap.Synthesis

/-!
# How nodes are numbered

A writer numbers nodes as they are opened, and lists each under its parent. The parents themselves
are not stored. Here they are a function `parent`, and everything about the shape of a trace is said
about it: the children of a node are the numbers with that parent in ascending order (`Numbered`),
so no number is listed twice.

That the numbers follow the tree is one fact about `parent`. A node encloses the numbers that lie
below it in the tree, and these come right after it: `Encloses parent a k` says that from `a` up to
`k` no number has a parent before `a`. Every parent encloses its children, and every open node
encloses all later numbers, which is what opening a node asks for and gives back. `visit_root` draws
the conclusion, that the visit of a tree goes through the numbers in order.
-/

set_option autoImplicit false

namespace ArithScript.Trace

/-- All numbers after `a`, up to `k`, have a parent that is not before `a`. -/
def Encloses (parent : Nat → Option Nat) (a k : Nat) : Prop :=
  ∀ i, a < i → i ≤ k → ∃ q, parent i = some q ∧ a ≤ q

namespace Encloses

variable {parent : Nat → Option Nat} {a b k : Nat}

theorem of_le (h : k ≤ a) : Encloses parent a k := by
  intro i hai hik
  omega

theorem mono (h : Encloses parent a k) (hb : b ≤ k) : Encloses parent a b := by
  intro i hai hib
  exact h i hai (Nat.le_trans hib hb)

theorem trans (hab : Encloses parent a b) (hbk : Encloses parent b k) (hle : a ≤ b) :
    Encloses parent a k := by
  intro i hai hik
  by_cases hib : i ≤ b
  · exact hab i hai hib
  · obtain ⟨q, hq, hbq⟩ := hbk i (by omega) hik
    exact ⟨q, hq, Nat.le_trans hle hbq⟩

/-- Only the parents up to the end matter. -/
theorem congr {parent' : Nat → Option Nat} (h : Encloses parent a k)
    (hsame : ∀ i, i ≤ k → parent' i = parent i) : Encloses parent' a k := by
  intro i hai hik
  rw [hsame i hik]
  exact h i hai hik

end Encloses

/-- The parents after one more node has been opened. -/
def parentWith (parent : Nat → Option Nat) (id : Nat) (p : Option Nat) (j : Nat) : Option Nat :=
  if j = id then p else parent j

@[simp] theorem parentWith_self (parent : Nat → Option Nat) (id : Nat) (p : Option Nat) :
    parentWith parent id p id = p := if_pos rfl

theorem parentWith_of_ne (parent : Nat → Option Nat) {id j : Nat} (p : Option Nat) (h : j ≠ id) :
    parentWith parent id p j = parent j := if_neg h

theorem encloses_parentWith {parent : Nat → Option Nat} {a k id : Nat} (p : Option Nat)
    (hk : k < id) : Encloses (parentWith parent id p) a k ↔ Encloses parent a k := by
  have hsame : ∀ i, i ≤ k → parentWith parent id p i = parent i := by
    intro i hi
    exact parentWith_of_ne parent p (Nat.ne_of_lt (Nat.lt_of_le_of_lt hi hk))
  constructor
  · intro h
    exact h.congr fun i hi => (hsame i hi).symm
  · intro h
    exact h.congr hsame

/-- **The nodes of a tree are numbered along its branches**, and `parent` gives their parents. -/
structure Tree.Numbered (tree : Tree) (parent : Nat → Option Nat) : Prop where
  parent_lt : ∀ j p, parent j = some p → p < j ∧ j < tree.size
  children : ∀ i, tree.children i
    = (List.range tree.size).filter fun j => decide (parent j = some i)
  encloses_parent : ∀ j p, parent j = some p → Encloses parent p j

namespace Writer

@[simp] theorem size_tree (w : Writer) : w.tree.size = w.nodes.size := rfl

/-- The same of a writer with open nodes: these enclose all that come after them, and whatever
encloses an open node is open itself. -/
structure Numbered (w : Writer) (parent : Nat → Option Nat) : Prop where
  tree : w.tree.Numbered parent
  active_lt : ∀ a ∈ w.active, a < w.nodes.size
  descending : w.active.Pairwise (· > ·)
  encloses_active : ∀ a ∈ w.active, ∀ k < w.nodes.size, Encloses parent a k
  active_of_encloses : ∀ a ∈ w.active, ∀ i < a, Encloses parent i a → i ∈ w.active

namespace Numbered

variable {w : Writer} {parent : Nat → Option Nat}

theorem start : Writer.start.Numbered fun _ => none where
  tree := by
    refine ⟨fun j p hp => (by cases hp), ?_, fun j p hp => (by cases hp)⟩
    intro i
    cases i with
    | zero => rfl
    | succ i => rfl
  active_lt a ha := by
    rw [List.mem_singleton.mp ha]
    exact Nat.one_pos
  descending := List.pairwise_singleton _ _
  encloses_active a ha k hk := Encloses.of_le (by
    have : k < 1 := hk
    omega)
  active_of_encloses a ha i hi := by
    rw [List.mem_singleton.mp ha] at hi
    exact absurd hi (Nat.not_lt_zero i)

theorem append (h : w.Numbered parent) (s : String) : (w.append s).Numbered parent :=
  ⟨h.tree, h.active_lt, h.descending, h.encloses_active, h.active_of_encloses⟩

theorem head_mem {p : Nat} (hp : w.active.head? = some p) : p ∈ w.active := List.mem_of_head? hp

/-- The innermost open node is the last of the open ones. -/
theorem le_head (h : w.Numbered parent) {a p : Nat} (ha : a ∈ w.active)
    (hp : w.active.head? = some p) : a ≤ p := by
  have hdescending := h.descending
  cases hactive : w.active with
  | nil => simp [hactive] at ha
  | cons q rest =>
    rw [hactive] at ha hp hdescending
    obtain rfl : q = p := by simpa using hp
    rcases List.mem_cons.mp ha with rfl | ha
    · exact Nat.le_refl _
    · exact Nat.le_of_lt ((List.pairwise_cons.mp hdescending).1 a ha)

/-- An open node encloses the next one too, because the parent of that is the innermost open
node. -/
theorem encloses_openNode (h : w.Numbered parent) {a k : Nat} (ha : a ∈ w.active)
    (hk : k ≤ w.nodes.size) :
    Encloses (parentWith parent w.nodes.size w.active.head?) a k := by
  intro i hai hik
  by_cases hi : i = w.nodes.size
  · subst hi
    obtain ⟨p, hp⟩ : ∃ p, w.active.head? = some p :=
      Option.isSome_iff_exists.mp (List.isSome_head?.mpr (List.ne_nil_of_mem ha))
    exact ⟨p, by simp [hp], h.le_head ha hp⟩
  · rw [parentWith_of_ne parent _ hi]
    exact h.encloses_active a ha i (by omega) i hai (Nat.le_refl i)

theorem tree_openNode (h : w.Numbered parent) (region : Region) :
    (w.openNode region).tree.Numbered (parentWith parent w.nodes.size w.active.head?) := by
  constructor
  case parent_lt =>
    intro j p hp
    rw [size_tree, size_openNode]
    by_cases hj : j = w.nodes.size
    · subst hj
      rw [parentWith_self] at hp
      exact ⟨h.active_lt p (head_mem hp), Nat.lt_succ_self _⟩
    · rw [parentWith_of_ne parent _ hj] at hp
      obtain ⟨hpj, hj⟩ := h.tree.parent_lt j p hp
      exact ⟨hpj, Nat.lt_succ_of_lt hj⟩
  case children =>
    intro i
    rw [children_openNode h.active_lt, h.tree.children, size_tree, size_tree, size_openNode,
      List.range_succ, List.filter_append]
    -- the new node is last in the numbering, so it is filtered on its own
    congr 1
    · refine List.filter_congr fun j hj => ?_
      rw [parentWith_of_ne parent _ (Nat.ne_of_lt (List.mem_range.mp hj))]
    · by_cases hi : w.active.head? = some i
      · simp [hi]
      · simp [hi]
  case encloses_parent =>
    intro j p hp
    by_cases hj : j = w.nodes.size
    · subst hj
      rw [parentWith_self] at hp
      exact h.encloses_openNode (head_mem hp) (Nat.le_refl _)
    · rw [parentWith_of_ne parent _ hj] at hp
      have hlt : j < w.nodes.size := (h.tree.parent_lt j p hp).2
      exact (encloses_parentWith _ hlt).mpr (h.tree.encloses_parent j p hp)

theorem openNode (h : w.Numbered parent) (region : Region) :
    (w.openNode region).Numbered (parentWith parent w.nodes.size w.active.head?) := by
  constructor
  case tree => exact h.tree_openNode region
  case active_lt =>
    intro a ha
    rw [size_openNode]
    rcases List.mem_cons.mp ha with rfl | ha
    · exact Nat.lt_succ_self _
    · exact Nat.lt_succ_of_lt (h.active_lt a ha)
  case descending =>
    rw [active_openNode, List.pairwise_cons]
    exact ⟨h.active_lt, h.descending⟩
  case encloses_active =>
    intro a ha k hk
    rw [size_openNode] at hk
    rcases List.mem_cons.mp ha with rfl | ha
    · exact Encloses.of_le (Nat.le_of_lt_succ hk)
    · exact h.encloses_openNode ha (Nat.le_of_lt_succ hk)
  case active_of_encloses =>
    intro a ha i hi hencloses
    rw [active_openNode]
    rcases List.mem_cons.mp ha with rfl | ha
    · -- what encloses the new node encloses its parent, or is the parent
      obtain ⟨p, hp, hip⟩ := hencloses _ hi (Nat.le_refl _)
      rw [parentWith_self] at hp
      have hpmem := head_mem hp
      have hplt := h.active_lt p hpmem
      rcases Nat.lt_or_eq_of_le hip with hlt | rfl
      · have hparent := (encloses_parentWith _ hplt).mp (hencloses.mono (Nat.le_of_lt hplt))
        exact List.mem_cons_of_mem _ (h.active_of_encloses p hpmem i hlt hparent)
      · exact List.mem_cons_of_mem _ hpmem
    · have hbefore := (encloses_parentWith _ (h.active_lt a ha)).mp hencloses
      exact List.mem_cons_of_mem _ (h.active_of_encloses a ha i hi hbefore)

theorem close (h : w.Numbered parent) (id : Nat) : (w.close id).Numbered parent := by
  have hmem : ∀ a ∈ w.active.tail, a ∈ w.active := fun a => List.mem_of_mem_tail
  constructor
  case tree =>
    refine ⟨?_, ?_, h.tree.encloses_parent⟩
    · rw [size_tree, size_close]
      exact h.tree.parent_lt
    · intro i
      rw [size_tree, size_close, ← size_tree, ← h.tree.children]
      exact children_endTarget id w i
  case active_lt =>
    intro a ha
    rw [size_close]
    exact h.active_lt a (hmem a ha)
  case descending => exact h.descending.sublist (List.tail_sublist _)
  case encloses_active =>
    intro a ha k hk
    rw [size_close] at hk
    exact h.encloses_active a (hmem a ha) k hk
  case active_of_encloses =>
    intro a ha i hi hencloses
    have hactive := h.active_of_encloses a (hmem a ha) i hi hencloses
    have hdescending := h.descending
    rw [active_close] at ha ⊢
    cases hstack : w.active with
    | nil => simp [hstack] at hactive
    | cons p rest =>
      rw [hstack] at hactive hdescending ha
      rw [List.tail_cons] at ha ⊢
      -- the closed node was the last, and this one comes before another that is open
      have hpa : p > a := (List.pairwise_cons.mp hdescending).1 a ha
      rcases List.mem_cons.mp hactive with rfl | hactive
      · omega
      · exact hactive

end Numbered

end Writer

/-! ## The visit

The visit keeps a list of nodes that are still to be visited. In terms of numbers that list is
known: when it is the turn of a number, all numbers from there on are pending, each below a node
that has been visited. -/

/-- If in a list nothing of a second kind stands before something of a first, then picking both
kinds is picking the first and then the second. -/
theorem filter_or_eq_append {first second : Nat → Bool} {xs : List Nat}
    (hkinds : ∀ x, first x = true → second x = false)
    (horder : xs.Pairwise fun x y => second x = true → first y = false) :
    xs.filter (fun x => first x || second x) = xs.filter first ++ xs.filter second := by
  induction xs with
  | nil => rfl
  | cons x xs ih =>
    obtain ⟨hx, hxs⟩ := List.pairwise_cons.mp horder
    by_cases hfirst : first x = true
    · simp [hfirst, hkinds x hfirst, ih hxs]
    · by_cases hsecond : second x = true
      · have hnone : xs.filter first = [] := by
          rw [List.filter_eq_nil_iff]
          intro y hy
          simp [hx y hy hsecond]
        simp [hfirst, hsecond, ih hxs, hnone]
      · simp [hfirst, hsecond, ih hxs]

namespace Tree.Numbered

variable {tree : Tree} {parent : Nat → Option Nat}

/-- The numbers from `i` on whose parents come before `i`: what is left to visit when the numbers
below `i` have been. -/
def pending (tree : Tree) (parent : Nat → Option Nat) (i : Nat) : List Nat :=
  (List.range' i (tree.size - i)).filter fun j => (parent j).any (· < i)

/-- The children of a node come after it. -/
theorem children_eq (h : tree.Numbered parent) {i : Nat} (hi : i < tree.size) :
    tree.children i
      = (List.range' (i + 1) (tree.size - (i + 1))).filter fun j => decide (parent j = some i) := by
  have hrange : List.range tree.size
      = List.range' 0 (i + 1) ++ List.range' (i + 1) (tree.size - (i + 1)) := by
    have hsplit := List.range'_append_1 (s := 0) (m := i + 1) (n := tree.size - (i + 1))
    rw [Nat.zero_add, Nat.add_sub_cancel' hi] at hsplit
    rw [List.range_eq_range', hsplit]
  have hnone : (List.range' 0 (i + 1)).filter (fun j => decide (parent j = some i)) = [] := by
    rw [List.filter_eq_nil_iff]
    intro j hj
    have hle := (List.mem_range'_1.mp hj).2
    intro hparent
    have := h.parent_lt j i (by simpa using hparent)
    omega
  rw [h.children, hrange, List.filter_append, hnone, List.nil_append]

/-- **A round of the visit**: the children of the visited number take its place in front of what was
left, and that is what is left now. -/
theorem children_append_pending (h : tree.Numbered parent) {i : Nat} (hi : i < tree.size) :
    tree.children i
        ++ (List.range' (i + 1) (tree.size - (i + 1))).filter (fun j => (parent j).any (· < i))
      = pending tree parent (i + 1) := by
  rw [h.children_eq hi, pending, ← filter_or_eq_append]
  · refine List.filter_congr fun j _ => ?_
    cases parent j with
    | none => simp
    | some p =>
      simp only [Option.some.injEq, Option.any_some]
      rw [Bool.eq_iff_iff]
      simp
      omega
  · intro j hj
    simp only [decide_eq_true_eq] at hj
    simp [hj]
  · -- a number with an earlier parent, then a child of `i`: but `i` encloses its children
    refine List.Pairwise.imp_of_mem ?_ (List.pairwise_lt_range' (s := i + 1))
    intro j k hj hk hjk hbefore
    simp only [decide_eq_false_iff_not]
    intro hparent
    have hij := (List.mem_range'_1.mp hj).1
    obtain ⟨q, hq, hiq⟩ := h.encloses_parent k i hparent j (by omega) (by omega)
    simp only [hq, Option.any_some, decide_eq_true_eq] at hbefore
    omega

/-- If the numbers below `m` all have parents, and no other number has a parent among them, then the
visit from `i` on goes through the numbers up to `m`. -/
theorem visit_pending (h : tree.Numbered parent) {m : Nat} (hm : m ≤ tree.size)
    (hbelow : ∀ i, 0 < i → i < m → ∃ q, parent i = some q)
    (hclosed : ∀ j p, parent j = some p → p < m → j < m) :
    ∀ count i rounds, 0 < i → i + count = m → count ≤ rounds →
      tree.visit rounds (pending tree parent i) = List.range' i count := by
  intro count
  -- the induction is on the nodes still to come: what waits at node `i` are the later nodes whose
  -- parent is before `i`
  induction count with
  | zero =>
    intro i rounds _ hi _
    have hnone : pending tree parent i = [] := by
      rw [pending, List.filter_eq_nil_iff]
      intro j hj hparent
      have hij := (List.mem_range'_1.mp hj).1
      cases hp : parent j with
      | none => simp [hp] at hparent
      | some p =>
        simp only [hp, Option.any_some, decide_eq_true_eq] at hparent
        have := hclosed j p hp (by omega)
        omega
    rw [hnone]
    cases rounds <;> rfl
  | succ count ih =>
    intro i rounds hpos hi hrounds
    obtain ⟨rounds, rfl⟩ : ∃ r, rounds = r + 1 := ⟨rounds - 1, by omega⟩
    obtain ⟨q, hq⟩ := hbelow i hpos (by omega)
    have hqi := (h.parent_lt i q hq).1
    have hnext : pending tree parent i
        = i :: (List.range' (i + 1) (tree.size - (i + 1))).filter
        fun j => (parent j).any (· < i) := by
      rw [pending, show tree.size - i = tree.size - (i + 1) + 1 by omega, List.range'_succ,
        List.filter_cons_of_pos (by simpa [hq] using hqi)]
    rw [hnext, Tree.visit, h.children_append_pending (by omega), List.range'_succ,
      ih (i + 1) rounds (by omega) (by omega) (by omega)]

/-- **The visit from the root lists the numbers in order**, up to the first without a parent. -/
theorem visit_root (h : tree.Numbered parent) {m : Nat} (hpos : 0 < m) (hm : m ≤ tree.size)
    (hbelow : ∀ i, 0 < i → i < m → ∃ q, parent i = some q)
    (hclosed : ∀ j p, parent j = some p → p < m → j < m) {rounds : Nat} (hrounds : m ≤ rounds) :
    tree.visit rounds [root] = List.range m := by
  obtain ⟨rounds, rfl⟩ : ∃ r, rounds = r + 1 := ⟨rounds - 1, by omega⟩
  obtain ⟨m, rfl⟩ : ∃ k, m = k + 1 := ⟨m - 1, by omega⟩
  have hround := h.children_append_pending (i := 0) (by omega)
  have hnone : (List.range' (0 + 1) (tree.size - (0 + 1))).filter (fun j => (parent j).any (· < 0))
      = [] := by
    rw [List.filter_eq_nil_iff]
    intro j _
    cases parent j <;> simp
  rw [hnone] at hround
  rw [Tree.visit, root, hround, Nat.zero_add,
    h.visit_pending hm hbelow hclosed m 1 rounds Nat.one_pos (by omega) (by omega),
    List.range_eq_range', List.range'_succ]

end Tree.Numbered

end ArithScript.Trace
