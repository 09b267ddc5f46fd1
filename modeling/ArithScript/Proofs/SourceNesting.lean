import ArithScript.Proofs.TraceTree
import ArithScript.Proofs.TracedRegions
import ArithScript.Proofs.WriterExtension

/-!
# Sources nest as the constructs do

In a source text a construct stands around its parts. A module is `WellNested` if its regions say
so: each lies inside the region of every construct around it, where both are present, and those in
the arguments of a call lie between the first and the last. Then the trace is nested in the same
way, and the source of a node lies inside the source of the node above it.

A region that is absent leaves its parts to the next construct that has one, so marked text is
compared with the innermost mark around it (`Fragment.Contained`). The marks that are no regions of
a construct are the reason for the condition on arguments, which are marked from the first to the
last.
-/

set_option autoImplicit false

namespace ArithScript

open Trace Lowering

namespace Region

/-- One region lies inside another, by offsets. -/
def LiesIn (inner outer : Region) : Prop := outer.offset ≤ inner.offset ∧ inner.stop ≤ outer.stop

instance (inner outer : Region) : Decidable (inner.LiesIn outer) :=
  inferInstanceAs (Decidable (_ ∧ _))

theorem LiesIn.refl (r : Region) : r.LiesIn r := ⟨Nat.le_refl _, Nat.le_refl _⟩

/-- A region lies inside another where there is one. -/
def Surrounds (outer : Option Region) (inner : Region) : Prop := ∀ r ∈ outer, inner.LiesIn r

instance (outer : Option Region) (inner : Region) : Decidable (Surrounds outer inner) :=
  inferInstanceAs (Decidable (∀ r ∈ outer, inner.LiesIn r))

theorem surrounds_none (inner : Region) : Surrounds none inner := by
  intro r hr
  cases hr

theorem surrounds_or {own outer : Option Region} {inner : Region} (hown : Surrounds own inner)
    (houter : Surrounds outer inner) : Surrounds (own.or outer) inner := by
  cases own with
  | none => exact houter
  | some r => exact hown

theorem surrounds_self {own : Option Region} {r : Region} (h : r ∈ own.toList) :
    Surrounds own r := by
  intro s hs
  rw [Option.mem_toList, hs] at h
  cases h
  exact .refl _

end Region

open Region

/-! ## Well-nested modules

The condition is on the regions that are present, and asks nothing of the others. All of it can be
read off a document that a parser has made of a text. -/

/-- The regions in some arguments lie between the start of the first and the end of the last, if
these have regions. -/
def Expr.Spanned (arguments : List Expr) : Prop :=
  ∀ a b first last, arguments.head? = some a → arguments.getLast? = some b → a.region = some first →
    b.region = some last → ∀ e ∈ arguments, ∀ r ∈ e.regions, first.offset ≤ r.offset
      ∧ r.stop ≤ last.stop

/-- **The regions of an expression are nested** as its parts are. -/
inductive Expr.WellNested : Expr → Prop where
  | literal (value : Double) (region : Option Region) : WellNested (.literal value region)
  | binary {operator : Operator} {operatorRegion : Option Region} {left right : Expr}
      {region : Option Region} (token : ∀ r ∈ operatorRegion, Surrounds region r)
      (operands : ∀ r ∈ left.regions ++ right.regions, Surrounds region r) (hleft : left.WellNested)
      (hright : right.WellNested) : WellNested (.binary operator operatorRegion left right region)
  | call {function : Reference} {arguments : List Expr} {region : Option Region}
      (name : ∀ r ∈ function.region, Surrounds region r)
      (inside : ∀ e ∈ arguments, ∀ r ∈ e.regions, Surrounds region r)
      (spanned : Expr.Spanned arguments) (each : ∀ e ∈ arguments, e.WellNested) :
      WellNested (.call function arguments region)

/-- The regions of a statement are nested, those of its name, its parameters and its expression in
its own. -/
structure Statement.WellNested (s : Statement) : Prop where
  inside : ∀ r ∈ s.regions, Surrounds s.region r
  expression : s.expression.WellNested

/-- **The regions of a module are nested.** -/
structure Module.WellNested (m : Module) : Prop where
  inside : ∀ r ∈ m.regions, Surrounds m.region r
  statements : ∀ s ∈ m.statements, s.WellNested

/-- The region of an expression surrounds all regions in it. -/
theorem Expr.WellNested.surrounds {e : Expr} (h : e.WellNested) {r : Region} (hr : r ∈ e.regions) :
    Surrounds e.region r := by
  cases h with
  | literal value region => exact surrounds_self hr
  | binary token operands hleft hright =>
    rw [Expr.regions, List.append_assoc, List.mem_append, List.mem_append, Option.mem_toList] at hr
    rcases hr with (hr | hr) | hr
    · exact surrounds_self (Option.mem_toList.mpr hr)
    · exact token r (Option.mem_toList.mp hr)
    · exact operands r hr
  | call name inside spanned each =>
    rw [Expr.regions, Expr.allRegions_eq_flatMap, List.mem_append, List.mem_append,
      Option.mem_toList, List.mem_flatMap] at hr
    rcases hr with (hr | hr) | ⟨e, he, hr⟩
    · exact surrounds_self (Option.mem_toList.mpr hr)
    · exact name r (Option.mem_toList.mp hr)
    · exact inside e he r hr

/-! ## Marks inside marks -/

/-- The stretch of the arguments lies in whatever their regions lie in. -/
theorem surrounds_argumentsRegion {outer : Option Region} {arguments : List Expr}
    (hregions : ∀ e ∈ arguments, ∀ r ∈ e.regions, Surrounds outer r) :
    ∀ r ∈ Expr.argumentsRegion arguments, Surrounds outer r := by
  intro r hr s hs
  obtain ⟨a, b, first, last, ha, hb, hfirst, hlast, rfl⟩ := exists_of_argumentsRegion hr
  have own : ∀ e ∈ arguments, ∀ r, e.region = some r → r.LiesIn s := fun e he r hr =>
    hregions e he r (e.toList_region_subset (Option.mem_toList.mpr hr)) s hs
  exact ⟨(own a (List.mem_of_head? ha) first hfirst).1,
    (own b (List.mem_of_getLast? hb) last hlast).2⟩

/-- And the regions of the arguments lie in it. -/
theorem Expr.Spanned.surrounds {arguments : List Expr} (h : Expr.Spanned arguments) {e : Expr}
    (he : e ∈ arguments) {r : Region} (hr : r ∈ e.regions) :
    Surrounds (Expr.argumentsRegion arguments) r := by
  intro s hs
  obtain ⟨a, b, first, last, ha, hb, hfirst, hlast, rfl⟩ := exists_of_argumentsRegion hs
  exact h a b first last ha hb hfirst hlast e he r hr

/-- The parts of an expression lie inside its region, and inside what is around the expression where
it has none. -/
theorem Expr.WellNested.placed {e : Expr} (h : e.WellNested) {outer : Option Region}
    (hregions : ∀ r ∈ e.regions, Surrounds outer r) : e.Placed Surrounds outer := by
  induction h generalizing outer with
  | literal value region => exact .literal fun r hr => hregions r (Option.mem_toList.mpr hr)
  | @binary operator operatorRegion left right region token operands hleft hright ihleft ihright =>
    simp only [Expr.regions, List.forall_mem_append, Option.mem_toList] at hregions operands
    obtain ⟨⟨⟨own, htoken⟩, houtleft⟩, houtright⟩ := hregions
    have hinleft : ∀ r ∈ left.regions, Surrounds (region.or outer) r := fun r hr =>
      surrounds_or (operands.1 r hr) (houtleft r hr)
    have hinright : ∀ r ∈ right.regions, Surrounds (region.or outer) r := fun r hr =>
      surrounds_or (operands.2 r hr) (houtright r hr)
    -- the parentheses are marked with the region of the operand, and so is the operand in them
    exact .binary own (fun r hr => surrounds_or (token r hr) (htoken r hr))
      (ihleft hinleft) (ihleft fun r hr => surrounds_or (hleft.surrounds hr) (hinleft r hr))
      (ihright hinright) (ihright fun r hr => surrounds_or (hright.surrounds hr) (hinright r hr))
  | @call function arguments region name inside spanned each ih =>
    simp only [Expr.regions, Expr.allRegions_eq_flatMap, List.forall_mem_append, List.mem_flatMap,
      forall_exists_index, and_imp, Option.mem_toList] at hregions
    obtain ⟨⟨own, hname⟩, houter⟩ := hregions
    have hinside : ∀ e ∈ arguments, ∀ r ∈ e.regions, Surrounds (region.or outer) r :=
      fun e he r hr => surrounds_or (inside e he r hr) (houter r e he hr)
    exact .call own (fun r hr => surrounds_or (name r hr) (hname r hr))
      (surrounds_argumentsRegion hinside)
      fun e he => ih e he fun r hr => surrounds_or (spanned.surrounds he hr) (hinside e he r hr)

/-- A statement puts marks where its regions allow, around its name, its parameters and its
expression. -/
theorem Statement.WellNested.placed {s : Statement} (h : s.WellNested) {outer : Option Region}
    (hregions : ∀ r ∈ s.regions, Surrounds outer r) : s.Placed Surrounds outer := by
  have hinner : ∀ r ∈ s.regions, Surrounds (s.region.or outer) r := fun r hr =>
    surrounds_or (h.inside r hr) (hregions r hr)
  have hexpression := h.expression
  cases s with
  | definition d =>
    simp only [Statement.regions, Definition.regions, Statement.region, List.forall_mem_append,
      List.mem_flatMap, forall_exists_index, and_imp, Option.mem_toList] at hregions hinner
    obtain ⟨⟨⟨own, name⟩, parameters⟩, body⟩ := hinner
    exact .definition hregions.1.1.1 own name (fun p hp r => parameters r p hp)
      (hexpression.placed body)
  | evaluation e =>
    simp only [Statement.regions, Statement.region, List.forall_mem_append, Option.mem_toList]
      at hregions hinner
    exact .evaluation hregions.1 (hexpression.placed hinner.2)

/-- **In a well-nested module every mark lies inside the innermost mark around it.** -/
theorem Module.WellNested.placed {m : Module} (h : m.WellNested) : m.Placed Surrounds := by
  have hinside := h.inside
  simp only [Module.regions, List.forall_mem_append, List.mem_flatMap, forall_exists_index,
    and_imp] at hinside
  refine ⟨fun r _ => surrounds_none r, fun s hs => (h.statements s hs).placed fun r hr => ?_⟩
  exact surrounds_or (hinside.2 r s hs hr) (surrounds_none r)

/-! ## The trace of contained marks

The invariant of a run: below each node with a source are nodes whose sources lie inside it. A new
node goes below the innermost open one, so the run has to be compared with the innermost mark around
what is written. -/

namespace Trace.Writer

/-- The source of a node, if there is such a node and it has one. -/
def source? (w : Writer) (id : Nat) : Option Region := (w.tree.node? id).bind Node.source

/-- The source of the innermost open node. -/
def innermost? (w : Writer) : Option Region := w.active.head?.bind w.source?

/-- **Sources nest**: the children of a node with a source have sources inside it. -/
def SourcesNest (w : Writer) : Prop :=
  ∀ id r, w.source? id = some r → ∀ child ∈ w.tree.children id,
    ∃ s, w.source? child = some s ∧ s.LiesIn r

theorem source?_eq (w : Writer) (id : Nat) :
    w.source? id = (w.nodes.toList.map Node.source)[id]?.join := by
  rw [source?, Tree.node?, List.getElem?_map, Array.getElem?_toList]
  cases h : w.tree.nodes[id]? with
  | none =>
    rw [show w.nodes[id]? = none from h]
    rfl
  | some node =>
    rw [show w.nodes[id]? = some node from h]
    rfl

theorem source?_openNode_self (region : Region) (w : Writer) :
    (w.openNode region).source? w.nodes.size = some region := by
  rw [source?_eq, map_openNode Node.source (fun _ _ => rfl)]
  simp

theorem source?_openNode_of_lt (region : Region) {w : Writer} {id : Nat} (h : id < w.nodes.size) :
    (w.openNode region).source? id = w.source? id := by
  rw [source?_eq, source?_eq, map_openNode Node.source (fun _ _ => rfl),
    List.getElem?_append_left (by simpa using h)]

theorem lt_size_of_source? {w : Writer} {id : Nat} {r : Region} (h : w.source? id = some r) :
    id < w.nodes.size := by
  obtain ⟨node, hnode, -⟩ := Option.bind_eq_some_iff.mp h
  exact (Array.getElem?_eq_some_iff.mp hnode).1

theorem lt_size_of_mem_children {w : Writer} {id child : Nat} (h : child ∈ w.tree.children id) :
    id < w.nodes.size := by
  by_contra hle
  have hnone : w.tree.node? id = none := Array.getElem?_eq_none (Nat.le_of_not_lt hle)
  rw [Tree.children, hnone] at h
  exact absurd h List.not_mem_nil

theorem source?_close (i : Nat) (w : Writer) (id : Nat) :
    (w.close i).source? id = w.source? id := by
  rw [source?_eq, source?_eq, show (w.close i).nodes = w.endTarget i from rfl,
    map_endTarget Node.source (fun source => source) w (fun _ => rfl)]
  simp [List.getElem?_modify]

theorem innermost?_openNode (region : Region) (w : Writer) :
    (w.openNode region).innermost? = some region := source?_openNode_self region w

/-- A node keeps its source for as long as the writer goes on. -/
theorem Keeps.source?_eq {v w : Writer} (h : v.Keeps w) {id : Nat} (hid : id < v.nodes.size) :
    w.source? id = v.source? id := by
  obtain ⟨ids, hids, -, -⟩ := h.nodes id hid
  show w.nodes[id]?.bind Node.source = v.nodes[id]?.bind Node.source
  rw [hids, Option.bind_map]
  rfl

/-- What is written inside the innermost open node leaves its source. -/
theorem Keeps.innermost?_eq {v w : Writer} (h : v.Keeps w)
    (hopen : ∀ id ∈ v.active, id < v.nodes.size) :
    w.innermost? = v.innermost? := by
  rw [innermost?, innermost?, h.active]
  cases hhead : v.active.head? with
  | none => rfl
  | some id => exact h.source?_eq (hopen id (List.mem_of_head? hhead))

namespace SourcesNest

variable {w : Writer}

theorem start : Writer.start.SourcesNest := by
  intro id r hr
  have hid := lt_size_of_source? hr
  obtain rfl : id = 0 := Nat.lt_one_iff.mp hid
  cases hr

/-- **Opening a node** inside the innermost open one keeps sources nested. -/
theorem openNode (h : w.SourcesNest) (hopen : ∀ id ∈ w.active, id < w.nodes.size) {region : Region}
    (hregion : Surrounds w.innermost? region) : (w.openNode region).SourcesNest := by
  intro id r hr child hchild
  rw [children_openNode hopen, List.mem_append] at hchild
  rcases hchild with hchild | hchild
  · -- an older child, so its parent is older too
    have hid := lt_size_of_mem_children hchild
    rw [source?_openNode_of_lt region hid] at hr
    obtain ⟨s, hs, hin⟩ := h id r hr child hchild
    exact ⟨s, by rw [source?_openNode_of_lt region (lt_size_of_source? hs), hs], hin⟩
  · split at hchild
    · next hhead =>
      obtain rfl := List.mem_singleton.mp hchild
      rw [source?_openNode_of_lt region (hopen id (List.mem_of_head? hhead))] at hr
      refine ⟨region, source?_openNode_self region w, hregion r ?_⟩
      rw [Option.mem_def, innermost?, hhead]
      exact hr
    · exact absurd hchild List.not_mem_nil

/-- Closing a node changes where it ends in the script, not where it comes from. -/
theorem close (h : w.SourcesNest) (i : Nat) : (w.close i).SourcesNest := by
  intro id r hr child hchild
  rw [source?_close] at hr ⊢
  rw [show (w.close i).tree.children id = w.tree.children id from children_endTarget i w id]
    at hchild
  exact h id r hr child hchild

end SourcesNest

end Trace.Writer

open Trace.Writer

namespace Fragment

/-- A fragment whose marks lie inside one another, the outermost ones in what is around it. -/
abbrev Contained : Option Region → Fragment → Prop := Meets (fun _ => True) Surrounds

mutual

/-- By recursion over the fragment: a mark opens a node below the innermost one that has a source,
and lies inside it. -/
theorem sourcesNest_write : ∀ (f : Fragment) {w : Writer}, w.SourcesNest →
    (∀ id ∈ w.active, id < w.nodes.size) → f.Contained w.innermost? → (f.write w).SourcesNest
  | .text s, w, h, _, _ => h
  | .marked none parts, w, h, hopen, .marked _ _ hparts =>
    sourcesNest_writeAll parts h hopen hparts
  | .marked (some region) parts, w, h, hopen, .marked hregion _ hparts => by
    have hopened := h.openNode hopen (hregion region rfl)
    rw [write]
    refine (sourcesNest_writeAll parts hopened (fun id hid => ?_) ?_).close _
    · rw [size_openNode]
      rcases List.mem_cons.mp hid with rfl | hid
      · exact Nat.lt_succ_self _
      · exact Nat.lt_succ_of_lt (hopen id hid)
    · rw [innermost?_openNode]
      exact hparts

/-- **Contained marks make nested sources**, if what they are written into is nested and holds
them. -/
theorem sourcesNest_writeAll : ∀ (fs : List Fragment) {w : Writer}, w.SourcesNest →
    (∀ id ∈ w.active, id < w.nodes.size) → (∀ f ∈ fs, f.Contained w.innermost?) →
    (writeAll fs w).SourcesNest
  | [], w, h, _, _ => h
  | f :: fs, w, h, hopen, hcontained => by
    obtain ⟨hfirst, hothers⟩ := List.forall_mem_cons.mp hcontained
    have hkeeps := keeps_write f w
    rw [writeAll]
    refine sourcesNest_writeAll fs (sourcesNest_write f h hopen hfirst) (fun id hid => ?_) ?_
    · rw [hkeeps.active] at hid
      exact Nat.lt_of_lt_of_le (hopen id hid) hkeeps.size
    · rw [hkeeps.innermost?_eq hopen]
      exact hothers

end

end Fragment

/-- **The trace is nested as the source is.** Take a module whose regions are well nested, with any
of them absent, and any limit under which it is lowered. The source of every child of a node lies
inside the source of the node, if the node has one. -/
theorem Module.sources_nest {m : Module} (h : m.WellNested) {maxDepth : Nat} {script : String}
    {tree : Tree} (hlower : m.lower maxDepth = .ok (script, tree)) {id child : Nat} {node : Node}
    {outer : Region} (hnode : tree.node? id = some node) (hsource : node.source = some outer)
    (hchild : tree.IsChild id child) :
    ∃ childNode inner, tree.node? child = some childNode ∧ childNode.source = some inner
      ∧ inner.LiesIn outer := by
  obtain rfl : tree = m.writer.finish.2 := by rw [m.finish_writer_of_lower hlower]
  have hopen : ∀ id ∈ Writer.start.active, id < Writer.start.nodes.size := by decide
  have hcontained : ∀ f ∈ m.fragments, f.Contained none :=
    meets_fragments (fun _ _ => trivial) h.placed fun _ _ => ⟨trivial, fun _ _ => trivial⟩
  have hwritten : m.writer.SourcesNest :=
    Fragment.sourcesNest_writeAll m.fragments SourcesNest.start hopen hcontained
  obtain ⟨inner, hinner, hin⟩ := hwritten.close Tree.root id outer (by
    show (m.writer.finish.2.node? id).bind Node.source = some outer
    rw [hnode]
    exact hsource) child hchild
  obtain ⟨childNode, hchildNode, hinner⟩ := Option.bind_eq_some_iff.mp hinner
  exact ⟨childNode, inner, hchildNode, hinner, hin⟩

/-- A constant whose body has no region, a function whose name and body have none, and the
evaluation of a call, also without one of its own. -/
def Module.partlyMarked : Module where
  region := some ⟨0, 60, none⟩
  statements := [
    .definition ⟨"k", some ⟨0, 1, none⟩, [],
      .binary .pow none (.literal ⟨0xC000000000000000⟩ (some ⟨4, 6, none⟩))
        (.literal ⟨0x4008000000000000⟩ (some ⟨8, 9, none⟩)) none, some ⟨0, 10, none⟩⟩,
    .definition ⟨"f", none, [⟨"x", some ⟨13, 14, none⟩⟩, ⟨"y", none⟩],
      .call ⟨"x", some ⟨18, 19, none⟩⟩ [] none, some ⟨11, 20, none⟩⟩,
    .evaluation ⟨.call ⟨"f", some ⟨21, 22, none⟩⟩ [
      .call ⟨"k", some ⟨23, 24, none⟩⟩ [] (some ⟨23, 24, none⟩),
      .binary .add (some ⟨28, 29, none⟩) (.literal ⟨0⟩ none) (.literal ⟨0⟩ (some ⟨30, 31, none⟩))
        (some ⟨26, 31, none⟩)] (some ⟨21, 32, none⟩), none⟩]

theorem Module.wellNested_partlyMarked : Module.partlyMarked.WellNested where
  inside := by decide
  statements := by
    have hspanned : Expr.Spanned [] := by
      intro a b first last ha
      cases ha
    have hreference {name : String} {own region : Option Region}
        (h : ∀ r ∈ own, Surrounds region r) :
        (Expr.call ⟨name, own⟩ [] region).WellNested :=
      .call h (fun e he => absurd he List.not_mem_nil) hspanned
        fun e he => absurd he List.not_mem_nil
    rw [partlyMarked, List.forall_mem_cons, List.forall_mem_cons, List.forall_mem_singleton]
    refine ⟨⟨by decide, .binary (by decide) (by decide) (.literal _ _) (.literal _ _)⟩,
      ⟨by decide, hreference (by decide)⟩, ⟨by decide, .call (by decide) (by decide) ?_ ?_⟩⟩
    · rintro a b first last ⟨⟩ ⟨⟩ ⟨⟩ ⟨⟩
      decide
    · rw [List.forall_mem_cons, List.forall_mem_singleton]
      exact ⟨hreference (by decide), .binary (by decide) (by decide) (.literal _ _) (.literal _ _)⟩

/-- In the sample the right operand of the constant, whose body is not marked, is a child of the
definition, and the second argument of the call is a child of the stretch from the first to the
last. -/
theorem Module.sources_nest_partlyMarked :
    Module.partlyMarked.WellNested
      ∧ ∃ script tree, Module.partlyMarked.lower 3 = .ok (script, tree)
        ∧ tree.IsChild 2 7 ∧ tree.IsChild 13 16
        ∧ (∃ node inner, tree.node? 7 = some node ∧ node.source = some inner
          ∧ inner.LiesIn ⟨0, 10, none⟩)
        ∧ ∃ node inner, tree.node? 16 = some node ∧ node.source = some inner
          ∧ inner.LiesIn ⟨23, 31, none⟩ := by
  have hlower : Module.partlyMarked.lower 3 = .ok Module.partlyMarked.writer.finish := by
    rw [Module.lower_eq, if_pos (by decide)]
    rfl
  have hsources :
      [2, 13].map (fun id => (Module.partlyMarked.writer.finish.2.node? id).bind Node.source)
      = [some ⟨0, 10, none⟩, some ⟨23, 31, none⟩] := by decide +kernel
  have hchildren : [2, 13].map Module.partlyMarked.writer.finish.2.children
      = [[3, 4, 5, 7], [14, 16]] := by decide +kernel
  simp only [List.map_cons, List.map_nil, List.cons.injEq, and_true] at hsources hchildren
  obtain ⟨constant, hconstant, hconstantSource⟩ := Option.bind_eq_some_iff.mp hsources.1
  obtain ⟨arguments, harguments, hargumentsSource⟩ := Option.bind_eq_some_iff.mp hsources.2
  have hoperand : Module.partlyMarked.writer.finish.2.IsChild 2 7 := by
    simp [Tree.IsChild, hchildren]
  have hargument : Module.partlyMarked.writer.finish.2.IsChild 13 16 := by
    simp [Tree.IsChild, hchildren]
  exact ⟨wellNested_partlyMarked, _, _, hlower, hoperand, hargument,
    sources_nest wellNested_partlyMarked hlower hconstant hconstantSource hoperand,
    sources_nest wellNested_partlyMarked hlower harguments hargumentsSource hargument⟩

end ArithScript
