import ArithScript.Proofs.FragmentConditions
import ArithScript.Proofs.Generation
import ArithScript.Proofs.Provenance

/-!
# Where the sources of a trace come from

The source of a node is a region of the module, or the cover of two of them: the arguments of a call
are marked from the first to the last, and that stretch is nowhere in the module. So whatever holds
of the regions of a module holds of all sources in its trace, provided that covers keep it
(`source_of_node`). What the property is depends on what the sources are read for, and is left open
here.
-/

set_option autoImplicit false

namespace ArithScript

open Trace Lowering

namespace Fragment

theorem mem_allSpans {fs : List Fragment} {span : Region × List Char} (h : span ∈ allSpans fs) :
    ∃ f ∈ fs, span ∈ f.spans := by
  induction fs with
  | nil => exact absurd h List.not_mem_nil
  | cons f fs ih =>
    rcases List.mem_append.mp h with h | h
    · exact ⟨f, List.mem_cons_self, h⟩
    · obtain ⟨g, hg, hspan⟩ := ih h
      exact ⟨g, List.mem_cons_of_mem _ hg, hspan⟩

/-- The marked stretches of a fragment have its marks. -/
theorem Meets.mark_of_mem_spans {texts : String → Prop} {P : Region → Prop}
    {outer : Option Region} {f : Fragment} (h : Meets texts (fun _ => P) outer f)
    {span : Region × List Char} (hspan : span ∈ f.spans) : P span.1 := by
  induction h with
  | text => exact absurd hspan List.not_mem_nil
  | @marked outer source parts hmark hparts each ih =>
    have hinner (hspan : span ∈ allSpans parts) : P span.1 := by
      obtain ⟨part, hpart, hspan⟩ := mem_allSpans hspan
      exact ih part hpart hspan
    cases source with
    | none => exact hinner hspan
    | some region =>
      rcases List.mem_cons.mp hspan with rfl | hspan
      · exact hmark region rfl
      · exact hinner hspan

/-- Every node of some fragments is that of a marked stretch, and has the region of the mark. -/
theorem exists_span_of_mem_outlineAll {fs : List Fragment} {o : Outline} (h : o ∈ outlineAll 0 fs) :
    ∃ span ∈ allSpans fs, o.source = some span.1 := by
  have hspan := List.mem_map_of_mem
    (f := fun o => (o.source, o.slice? ([] ++ allChars fs ++ []))) h
  have hspans := slices_outlineAll fs [] []
  rw [Text.byteLength_nil] at hspans
  rw [hspans] at hspan
  obtain ⟨span, hmem, hspan⟩ := List.mem_map.mp hspan
  exact ⟨span, hmem, (congrArg Prod.fst hspan).symm⟩

end Fragment

open Fragment

/-- Every node of a trace but the root has a source. -/
theorem Module.exists_source {m : Module} {id : Nat} (hid : id ≠ Tree.root) {node : Node}
    (hnode : m.writer.finish.2.node? id = some node) : ∃ r, node.source = some r := by
  obtain ⟨id, rfl⟩ := Nat.exists_eq_succ_of_ne_zero hid
  have houtline : (outlines m.writer.finish.2.nodes)[id + 1]? = some node.outline := by
    rw [outlines, List.getElem?_map, Array.getElem?_toList]
    exact congrArg (Option.map Node.outline) hnode
  rw [writer, Writer.outlines_finish, List.getElem?_cons_succ] at houtline
  obtain ⟨span, -, hspan⟩ := exists_span_of_mem_outlineAll (List.mem_of_getElem? houtline)
  exact ⟨span.1, hspan⟩

/-- **What holds of all regions of a module, and of covers, holds of all sources in its trace.** -/
theorem Module.source_of_node {m : Module} {P : Region → Prop}
    (hcover : ∀ r s, P r → P s → P (r.cover s)) (hregions : ∀ r ∈ m.regions, P r) {node : Node}
    (hnode : node ∈ m.writer.finish.2.nodes) {r : Region} (hsource : node.source = some r) :
    P r := by
  have houtline : node.outline ∈ outlines m.writer.finish.2.nodes :=
    List.mem_map_of_mem (Array.mem_toList_iff.mpr hnode)
  rw [writer, Writer.outlines_finish, List.mem_cons] at houtline
  rcases houtline with hroot | hmarked
  · -- the root has no source
    have : node.source = none := congrArg Outline.source hroot
    rw [this] at hsource
    cases hsource
  · obtain ⟨span, hmem, hspan⟩ := exists_span_of_mem_outlineAll hmarked
    obtain rfl : span.1 = r := Option.some.inj (hspan.symm.trans hsource)
    obtain ⟨part, hpart, hmem⟩ := mem_allSpans hmem
    have hmeets : Meets (fun _ => True) (fun _ => P) none part :=
      meets_fragments (fun _ _ => trivial) (placed_of_regions hcover hregions)
        (fun _ _ => ⟨trivial, fun _ _ => trivial⟩) part hpart
    exact hmeets.mark_of_mem_spans hmem

end ArithScript
