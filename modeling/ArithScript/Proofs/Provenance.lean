import ArithScript.Proofs.Rendering

/-!
# Provenance

Every node of a trace points at a stretch of the script and at the region it came from. What the two
have to do with each other is said by walking the module in the order in which it is written and
noting, for each construct that has a region, that region and the text of the construct
(`Module.provenance`). `Module.lower_provenance` says that the trace of a lowered module is this
list: node by node, the same regions, and under each node exactly the text of its construct.

The argument has one idea. Offsets are the byte lengths of what was written before, so cutting the
whole text at the offsets of a node undoes the putting together, whatever comes before and after
(`Text.slice?_append`). It is carried out on fragments, over every surrounding text.
-/

set_option autoImplicit false

namespace ArithScript

/-- The stretch of text under a node; `none` if its target names no such stretch. -/
def Trace.Node.slice? (node : Trace.Node) (text : List Char) : Option (List Char) :=
  Text.slice? node.target.offset node.target.stop text

/-- The stretch of text under an outline. -/
def Outline.slice? (o : Outline) (text : List Char) : Option (List Char) :=
  Text.slice? o.offset o.stop text

/-- The script of a module. -/
def Module.text (m : Module) : List Char := Fragment.allChars m.fragments

/-- The regions of a module in the order in which they are written, each with the text of the
construct that it belongs to. -/
def Module.provenance (m : Module) : List (Region × List Char) := m.body.spans

namespace Fragment

mutual

theorem slices_outline : ∀ (f : Fragment) (before after : List Char),
    (f.outline (Text.byteLength before)).map
        (fun o => (o.source, o.slice? (before ++ f.chars ++ after)))
      = f.spans.map fun span => (some span.1, some span.2)
  | .text s, before, after => rfl
  | .marked none parts, before, after => slices_outlineAll parts before after
  | .marked (some region) parts, before, after => by
    have inner := slices_outlineAll parts before after
    rw [outline, spans, List.map_cons, List.map_cons, chars, inner]
    exact congrArg (fun cut => (some region, cut) :: _) (Text.slice?_append before _ after)

/-- **Cutting a text at the outlines of fragments in it gives their spans.** The fragments after the
first start where it ends, so for them the first is a part of what comes before. -/
theorem slices_outlineAll : ∀ (fs : List Fragment) (before after : List Char),
    (outlineAll (Text.byteLength before) fs).map
        (fun o => (o.source, o.slice? (before ++ allChars fs ++ after)))
      = (allSpans fs).map fun span => (some span.1, some span.2)
  | [], before, after => rfl
  | f :: fs, before, after => by
    have first := slices_outline f before (allChars fs ++ after)
    have rest := slices_outlineAll fs (before ++ f.chars) after
    rw [Text.byteLength_append] at rest
    rw [outlineAll, allSpans, allChars_cons, List.map_append, List.map_append, ← first, ← rest]
    simp only [List.append_assoc]

end

end Fragment

/-- The nodes of fragments that were written on an empty writer: behind the root, which gets the
whole text, theirs. -/
theorem Trace.Writer.outlines_finish (fs : List Fragment) :
    outlines (Fragment.writeAll fs start).finish.2.nodes
      = ⟨none, 0, Text.byteLength (Fragment.allChars fs)⟩ :: Fragment.outlineAll 0 fs := by
  have written := Fragment.outline_writeAll fs start
  have length := Fragment.length_writeAll fs start
  rw [show start.length = 0 from rfl] at written length
  rw [finish, outlines_endTarget, written, length, Nat.zero_add]
  rfl

/-- A trace records spans of a text: node 0 has no source and stands for all of the text, and the
other nodes are the spans in their order, each with its region as source and its text under it. -/
def Trace.Tree.Records (tree : Trace.Tree) (text : List Char) (spans : List (Region × List Char)) :
    Prop :=
  ∃ root nodes, tree.nodes.toList = root :: nodes ∧
    root.source = none ∧ root.target.offset = 0 ∧ root.slice? text = some text ∧
    nodes.map (fun node => (node.source, node.slice? text))
      = spans.map fun span => (some span.1, some span.2)

/-- **Provenance is faithful.** The script of a lowered module is the text of the module, and its
trace records exactly the provenance of the module. -/
theorem Module.lower_provenance {m : Module} {maxDepth : Nat} {script : String} {tree : Trace.Tree}
    (h : m.lower maxDepth = .ok (script, tree)) :
    script.toList = m.text ∧ tree.Records m.text m.provenance := by
  rw [Module.lower_eq] at h
  split at h
  case isFalse => cases h
  obtain ⟨rfl, rfl⟩ := Prod.mk.inj (Except.ok.inj h)
  have text : (Fragment.writeAll m.fragments Trace.Writer.start).text.toList = m.text :=
    Fragment.chars_writeAll m.fragments Trace.Writer.start
  have nodes := Trace.Writer.outlines_finish m.fragments
  obtain ⟨root, nodes, hnodes, hroot, hrest⟩ := List.map_eq_cons_iff.mp nodes
  have cut := Fragment.slices_outlineAll m.fragments [] []
  rw [List.nil_append, List.append_nil, Text.byteLength_nil, ← hrest, List.map_map] at cut
  have hall := Text.slice?_append [] m.text []
  rw [List.nil_append, List.append_nil, Text.byteLength_nil, Nat.zero_add] at hall
  obtain ⟨hsource, hoffset, hstop⟩ := Outline.mk.inj hroot
  refine ⟨text, root, nodes, hnodes, hsource, hoffset, ?_, ?_⟩
  · rw [Trace.Node.slice?, hoffset, hstop]
    exact hall
  · rw [show m.provenance = Fragment.allSpans m.fragments by
      simp [Module.provenance, Module.fragments, Fragment.allSpans, Fragment.spans]]
    exact cut

/-- The definition `DEF f(a): (a - b) ^ a;`, of which some constructs have no region and one name
refers to nothing. -/
def Module.sample : Module :=
  ⟨none, [.definition ⟨"f", some ⟨4, 5, none⟩, [⟨"a", some ⟨6, 7, none⟩⟩],
    .binary .pow (some ⟨18, 19, none⟩)
      (.binary .sub none (.call ⟨"a", some ⟨11, 12, none⟩⟩ [] none)
        (.call ⟨"b", none⟩ [] (some ⟨15, 16, none⟩)) (some ⟨11, 16, none⟩))
      (.call ⟨"a", none⟩ [] none) none, none⟩]⟩

/-- What the trace of the sample records. -/
theorem Module.lower_provenance_sample :
    ∃ script tree, Module.sample.lower 3 = .ok (script, tree) ∧
      tree.Records script.toList [(⟨4, 5, none⟩, ['f']), (⟨6, 7, none⟩, ['a']),
        (⟨11, 16, none⟩, "(a - undefined)".toList), (⟨11, 16, none⟩, "a - undefined".toList),
        (⟨11, 12, none⟩, ['a']), (⟨15, 16, none⟩, "undefined".toList),
        (⟨18, 19, none⟩, "**".toList)] := by
  have hlower := Module.lower_eq Module.sample 3
  rw [if_pos (by decide)] at hlower
  obtain ⟨htext, hrecords⟩ := Module.lower_provenance hlower
  refine ⟨_, _, hlower, ?_⟩
  rw [htext]
  exact hrecords

end ArithScript
