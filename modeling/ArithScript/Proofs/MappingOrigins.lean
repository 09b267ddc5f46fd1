import ArithScript.Proofs.DocumentText
import ArithScript.Proofs.MappingPlaces
import ArithScript.Proofs.TracedRegions

/-!
# Mappings point into both texts

A mapping has a place in the source text and one in the script. The second is the end of a target,
and the writer keeps those where they belong. The first is the end of the range of a source, and
ranges come from outside: nothing is known of them unless they were filled in from the text. Where
the input gives none, each range that is there was found by the index of the source text, at both
offsets of its region. The cover of two regions takes one end from each, so its ends were found
there as well, though possibly not in order.
-/

set_option autoImplicit false

namespace ArithScript

open Trace

/-- One of the two byte offsets between which a region lies. -/
def Region.IsEnd (r : Region) (offset : Nat) : Prop := offset = r.offset ∨ offset = r.stop

/-- A position that an index finds at an end of one of some regions. -/
def LineIndex.FindsEnd (index : LineIndex) (regions : List Region) (p : Position) : Prop :=
  ∃ r ∈ regions, ∃ offset, r.IsEnd offset ∧ index.position? offset = some p

/-- The range of a region, if it has one, begins and stops at such positions. -/
def Region.RangedBy (index : LineIndex) (regions : List Region) (r : Region) : Prop :=
  ∀ range, r.range = some range →
    index.FindsEnd regions range.start ∧ index.FindsEnd regions range.stop

theorem LineIndex.position?_of_range? {index : LineIndex} {offset stop : Nat} {range : Range}
    (h : index.range? offset stop = some range) :
    index.position? offset = some range.start ∧ index.position? stop = some range.stop := by
  unfold range? at h
  split at h
  · simp only [Option.bind_eq_bind, Option.bind_eq_some_iff, Option.pure_def, Option.some.injEq]
      at h
    obtain ⟨start, hstart, last, hlast, rfl⟩ := h
    exact ⟨hstart, hlast⟩
  · cases h

namespace Region

variable {index : LineIndex} {regions : List Region}

theorem RangedBy.cover {r s : Region} (hr : r.RangedBy index regions)
    (hs : s.RangedBy index regions) :
    (r.cover s).RangedBy index regions := by
  intro range hrange
  unfold Region.cover at hrange
  dsimp only at hrange
  split at hrange
  · next a b ha hb =>
    -- the start is that of one region and the stop that of the other
    obtain rfl := Option.some.inj hrange
    exact ⟨(hr a ha).1, (hs b hb).2⟩
  · cases hrange

/-- A region that came without a range is ranged by the index that fills it in. -/
theorem rangedBy_fill {r : Region} (hrange : r.range = none) (hmem : r.fill index ∈ regions) :
    (r.fill index).RangedBy index regions := by
  have hfill : r.fill index = ⟨r.offset, r.stop, index.range? r.offset r.stop⟩ := by
    rw [fill, hrange]
  rw [hfill] at hmem ⊢
  intro range hfound
  obtain ⟨hstart, hstop⟩ := LineIndex.position?_of_range? hfound
  exact ⟨⟨_, hmem, r.offset, Or.inl rfl, hstart⟩, ⟨_, hmem, r.stop, Or.inr rfl, hstop⟩⟩

end Region

namespace Document

/-- The document that a text holds, as it stands there. -/
def read (text : String) : Except Json.Error Document :=
  Json.readText (decoder.read text.toList.length) text.toList

/-- An accepted text is read, and what is read is filled in. -/
theorem exists_read_of_parse {text : String} {maxDepth : Nat} {d : Document}
    (h : parse text maxDepth = .ok d) : ∃ plain, read text = .ok plain ∧ d = plain.fill := by
  unfold parse at h
  unfold read
  dsimp only at h
  cases hnesting : checkNesting text.toList maxDepth with
  | error refusal =>
    rw [hnesting] at h
    cases h
  | ok _ =>
    rw [hnesting] at h
    cases hread : Json.readText (decoder.read text.toList.length) text.toList with
    | error refusal =>
      rw [hread] at h
      cases h
    | ok plain =>
      rw [hread] at h
      exact ⟨plain, rfl, (Except.ok.inj h).symm⟩

theorem sourceText_fill (d : Document) : d.fill.sourceText = d.sourceText := by
  unfold fill
  split <;> rfl

theorem fill_of_sourceText {d : Document} {source : String} (h : d.sourceText = some source) :
    d.fill.module = d.module.fill (LineIndex.ofText source.toList) := by
  rw [fill, h]

/-- If the input gives no range, all regions of the document are ranged by its source text. -/
theorem rangedBy_regions {plain : Document} {source : String}
    (hranges : ∀ r ∈ plain.regions, r.range = none) (hsource : plain.sourceText = some source) :
    ∀ r ∈ plain.fill.regions, r.RangedBy (LineIndex.ofText source.toList) plain.fill.regions := by
  have hregions : plain.fill.regions
      = plain.regions.map (·.fill (LineIndex.ofText source.toList)) := by
    rw [regions, fill_of_sourceText hsource, Module.regions_fill]
    rfl
  intro r hr
  have hmem := hr
  rw [hregions] at hr
  obtain ⟨before, hbefore, rfl⟩ := List.mem_map.mp hr
  exact Region.rangedBy_fill (hranges before hbefore) hmem

end Document

/-- The origin of a site is an end of the range of a source. -/
theorem MappingSite.IsIn.findsEnd_origin {m : Module} {index : LineIndex} {regions : List Region}
    (hregions : ∀ r ∈ m.regions, r.RangedBy index regions) {s : MappingSite}
    (h : s.IsIn m.writer.finish.2) : index.FindsEnd regions s.mapping.origin := by
  obtain ⟨hnode, region, range, hregion, hrange, hends⟩ := h
  have hsource : region.RangedBy index regions :=
    Module.source_of_node (fun _ _ => Region.RangedBy.cover) hregions hnode hregion
  obtain ⟨hstart, hstop⟩ := hsource range hrange
  split at hends
  · rw [hends.2]
    exact hstart
  · rw [hends.2.2]
    exact hstop

/-- **Every mapping points into both texts.** Take an accepted text of a document that has a source
text and gives no range: its regions may be inverted, go past the end or begin inside a character.
Whatever is generated from it is a script with the annotation behind, and of every mapping the
origin is found in the source text at an end of a region of the document, and the generated position
is found in the code at a byte offset of the script. -/
theorem Document.mappings_inside_texts {text source uri : String} {maxDepth : Nat}
    {plain d : Document} {options : Options} {generated : Generated}
    (hparse : Document.parse text maxDepth = .ok d) (hread : Document.read text = .ok plain)
    (hranges : ∀ r ∈ plain.regions, r.range = none) (hsource : d.sourceText = some source)
    (hgenerate : d.generate uri options = .ok generated) :
    ∃ script tree, d.module.lower options.maxDepth = .ok (script, tree)
      ∧ generated.code = script ++ generated.trailer
      ∧ ∀ m ∈ generated.mappings,
          (∃ r ∈ d.regions, ∃ offset, r.IsEnd offset
              ∧ (LineIndex.ofText source.toList).position? offset = some m.origin)
            ∧ ∃ offset ≤ script.utf8ByteSize,
                (LineIndex.ofText generated.code.toList).position? offset = some m.generated := by
  obtain ⟨plain', hread', rfl⟩ := Document.exists_read_of_parse hparse
  obtain rfl : plain' = plain := Except.ok.inj (hread'.symm.trans hread)
  rw [Document.sourceText_fill] at hsource
  obtain ⟨script, tree, hlower, rfl⟩ := Document.exists_lower_of_generate hgenerate
  have hfinish := Module.finish_writer_of_lower hlower
  have hcode := plain'.fill.code_assemble uri options script tree
  refine ⟨script, tree, hlower, hcode, ?_⟩
  intro m hm
  rw [Document.mappings_assemble, Document.mappingsOf, ← map_mappingSites] at hm
  obtain ⟨s, hs, rfl⟩ := List.mem_map.mp hm
  -- every mapping is the mapping of a site, and a site knows its node
  have hin : s.IsIn plain'.fill.module.writer.finish.2 := by
    rw [hfinish]
    exact isIn_of_mem_mappingSites hs
  constructor
  · exact hin.findsEnd_origin (Document.rangedBy_regions hranges hsource)
  · -- the script is the beginning of the code, so its places are places of the code
    have hplace := Module.isPlace_site hin
    rw [show plain'.fill.module.writer.text = script from congrArg Prod.fst hfinish] at hplace
    have hinitial :
        script.toList <+: (plain'.fill.assemble uri options script tree).code.toList := by
      rw [hcode, String.toList_append]
      exact List.prefix_append _ _
    exact ⟨s.offset, Text.byteLength_toList script ▸ hplace.offset_le,
      (hplace.extend hinitial).position?⟩

/-- The second line of the text is `f(a, b)`. The module begins inside a character, the statement is
inverted, the first name goes past the end, and the arguments are in the wrong order. -/
def Document.misplaced : Document :=
  ⟨some "é\nf(a, b)", some ⟨1, 10, none⟩, [.evaluation ⟨.call ⟨"f", some ⟨3, 99, none⟩⟩
    [.call ⟨"a", some ⟨8, 9, none⟩⟩ [] (some ⟨8, 9, none⟩),
      .call ⟨"b", none⟩ [] (some ⟨5, 6, none⟩)]
    (some ⟨3, 10, none⟩), some ⟨9, 3, none⟩⟩]⟩

theorem Document.writable_misplaced : Document.misplaced.Writable := by
  simp [Document.misplaced, Document.Writable, Module.Writable, Statement.Writable,
    Evaluation.Writable, Expr.Writable, Expr.AllWritable, RegionFits, Region.Fits, Json.Width.max]

/-- Five ends are mapped. The second argument gives the stop of the arguments, and it is before the
first. -/
theorem Document.mappings_inside_texts_misplaced :
    Document.parse Document.misplaced.text 2 = .ok Document.misplaced.fill
      ∧ Document.read Document.misplaced.text = .ok Document.misplaced
      ∧ (∀ r ∈ Document.misplaced.regions, r.range = none)
      ∧ ∃ generated script, Document.misplaced.fill.generate "a/b" Options.default = .ok generated
        ∧ generated.mappings.map Mapping.origin = [⟨1, 5⟩, ⟨1, 5⟩, ⟨1, 6⟩, ⟨1, 2⟩, ⟨1, 3⟩]
        ∧ generated.code = script ++ generated.trailer
        ∧ ∀ m ∈ generated.mappings,
            (∃ r ∈ Document.misplaced.fill.regions, ∃ offset, r.IsEnd offset
                ∧ (LineIndex.ofText "é\nf(a, b)".toList).position? offset = some m.origin)
              ∧ ∃ offset ≤ script.utf8ByteSize,
                  (LineIndex.ofText generated.code.toList).position? offset = some m.generated := by
  have hsize : Document.misplaced.text.utf8ByteSize ≤ maxNesting := by
    rw [← Text.byteLength_toList, Document.toList_text]
    decide +kernel
  have hparse : Document.parse Document.misplaced.text 2 = .ok Document.misplaced.fill := by
    rw [Document.parse_text Document.writable_misplaced,
      if_pos (Document.nestingWithin_text hsize (by decide))]
  have hread : Document.read Document.misplaced.text = .ok Document.misplaced := by
    rw [Document.read, Document.toList_text]
    exact Document.readText_text Document.writable_misplaced
  have hranges : ∀ r ∈ Document.misplaced.regions, r.range = none := by decide
  obtain ⟨generated, hgenerate⟩ :=
    (Document.misplaced.fill.generate_eq "a/b" Options.default).1 (by decide)
  obtain ⟨script, tree, hlower, hcode, hinside⟩ :=
    Document.mappings_inside_texts hparse hread hranges rfl hgenerate
  have horigins : generated.mappings.map Mapping.origin
      = [⟨1, 5⟩, ⟨1, 5⟩, ⟨1, 6⟩, ⟨1, 2⟩, ⟨1, 3⟩] := by
    obtain ⟨script', tree', hlower', rfl⟩ := Document.exists_lower_of_generate hgenerate
    have hfinish := Module.finish_writer_of_lower hlower'
    have hscript : Document.misplaced.fill.module.writer.finish.1 = script' :=
      congrArg Prod.fst hfinish
    have htree : Document.misplaced.fill.module.writer.finish.2 = tree' := congrArg Prod.snd hfinish
    rw [Document.mappings_assemble, ← hscript, ← htree]
    decide +kernel
  exact ⟨hparse, hread, hranges, generated, script, hgenerate, horigins, hcode, hinside⟩

end ArithScript
