import ArithScript.Proofs.Base64
import ArithScript.Proofs.BuilderDecoding
import ArithScript.Proofs.Generation
import ArithScript.Proofs.JsonDecoding

/-!
# The annotation of a script

A reader that has nothing but the script looks for the last place where an annotation starts,
decodes what follows it to bytes, the bytes to JSON text, and the text to a source map. The script
comes before the annotation and may hold anything, another start of an annotation too. But what an
annotation starts with ends in a comma, and no comma follows in base 64, so no start of an
annotation can lie later than the true one, not even in part (`Text.afterLast?_append`). The rest is
that each of the three decodings undoes its encoding.
-/

set_option autoImplicit false

namespace ArithScript

open Json

/-! ## The last occurrence

`afterLast?` looks for a pattern at every place of a text and takes the last one. A pattern may
overlap itself, so an occurrence that begins in the script could end in the annotation; the
condition of `afterLast?_append` is what rules this out. -/

namespace Text

/-- What follows the last occurrence of a pattern. -/
def afterLast? (pattern : List Char) : List Char → Option (List Char)
  | [] => none
  | c :: cs =>
    match afterLast? pattern cs with
    | some rest => some rest
    | none => if pattern.isPrefixOf (c :: cs) then some ((c :: cs).drop pattern.length) else none

theorem afterLast?_cons_eq_none {pattern cs : List Char} {c : Char}
    (h : afterLast? pattern cs = none) (hinitial : ¬ pattern <+: c :: cs) :
    afterLast? pattern (c :: cs) = none := by
  rw [afterLast?, h]
  exact if_neg fun hhere => hinitial (List.isPrefixOf_iff_prefix.mp hhere)

theorem afterLast?_cons_eq_some {pattern cs rest : List Char} {c : Char}
    (h : afterLast? pattern cs = none) (heq : c :: cs = pattern ++ rest) :
    afterLast? pattern (c :: cs) = some rest := by
  have hhere : pattern.isPrefixOf (c :: cs) = true :=
    List.isPrefixOf_iff_prefix.mpr ⟨rest, heq.symm⟩
  rw [afterLast?, h]
  dsimp only
  rw [if_pos hhere, heq, List.drop_left]

variable {head after : List Char} {last : Char}

theorem afterLast?_eq_none (head : List Char) {text : List Char} (h : last ∉ text) :
    afterLast? (head ++ [last]) text = none := by
  induction text with
  | nil => rfl
  | cons c cs ih =>
    refine afterLast?_cons_eq_none (ih fun hlast => h (List.mem_cons_of_mem c hlast)) ?_
    intro hinitial
    exact h (hinitial.subset (List.mem_append_right head List.mem_cons_self))

/-- An occurrence would end later than the last place where its last character occurs. -/
theorem not_isPrefix_of_length_lt (hlast : last ∉ after) {before : List Char}
    (hlength : before.length < head.length) :
    ¬ (head ++ [last]) <+: before ++ last :: after := by
  rintro ⟨rest, heq⟩
  have hget : (before ++ last :: after)[head.length]? = some last := by
    rw [← heq, List.append_assoc, List.getElem?_append_right (Nat.le_refl _), Nat.sub_self]
    rfl
  obtain ⟨gap, hgap⟩ : ∃ gap, head.length - before.length = gap + 1 :=
    ⟨head.length - before.length - 1, by omega⟩
  rw [List.getElem?_append_right (Nat.le_of_lt hlength), hgap, List.getElem?_cons_succ] at hget
  exact hlast (List.mem_of_getElem? hget)

theorem afterLast?_eq_none_of_length_lt (hlast : last ∉ after) :
    ∀ before : List Char, before.length < head.length →
      afterLast? (head ++ [last]) (before ++ last :: after) = none := by
  intro before
  induction before with
  | nil =>
    intro hlength
    exact afterLast?_cons_eq_none (afterLast?_eq_none head hlast)
      (not_isPrefix_of_length_lt hlast hlength)
  | cons c before ih =>
    intro hlength
    exact afterLast?_cons_eq_none (ih (Nat.lt_of_succ_lt hlength))
      (not_isPrefix_of_length_lt hlast hlength)

/-- **The last occurrence of a pattern is found** if its last character does not occur after it,
whatever stands before it. -/
theorem afterLast?_append (hlast : last ∉ after) (before : List Char) :
    afterLast? (head ++ [last]) (before ++ (head ++ [last] ++ after)) = some after := by
  induction before with
  | nil =>
    cases head with
    | nil => exact afterLast?_cons_eq_some (afterLast?_eq_none [] hlast) rfl
    | cons c head =>
      have hlater : afterLast? (c :: head ++ [last]) (head ++ last :: after) = none :=
        afterLast?_eq_none_of_length_lt hlast head (Nat.lt_succ_self _)
      rw [List.append_cons head] at hlater
      exact afterLast?_cons_eq_some hlater rfl
  | cons c before ih => rw [List.cons_append, afterLast?, ih]

end Text

/-! ## Source maps as text

Three encodings lie on top of one another: the fields as JSON, the JSON as bytes, the bytes in base
64. Each is undone by the reader, in the opposite order. -/

theorem fromUTF8?_utf8Bytes (text : String) :
    String.fromUTF8? (utf8Bytes text).toByteArray = some text := by
  have hbytes : (utf8Bytes text).toByteArray = text.toByteArray := String.utf8Encode_toList
  rw [hbytes, String.fromUTF8?, dif_pos text.isValidUTF8]
  rfl

namespace SourceMap

theorem decodes_textsValue (texts : List String) :
    (Decoder.list Decoder.string).Decodes (textsValue texts) texts :=
  Decoder.decodes_list fun text _ => Decoder.decodes_string text

theorem decodes_toValue {m : SourceMap} (h : m.version ≤ Width.byte.max) :
    (shape.decoder "RawSourceMap").Decodes m.toValue m := by
  obtain ⟨version, sources, names, mappings, file, sourcesContent⟩ := m
  have hversion := Shape.accepts_required (Decoder.decodes_natural h) "version"
  have hsources := Shape.accepts_required (decodes_textsValue sources) "sources"
  have hnames := Shape.accepts_required (decodes_textsValue names) "names"
  have hmappings := Shape.accepts_required (Decoder.decodes_string mappings) "mappings"
  have hfile := Shape.accepts_required (Decoder.decodes_string file) "file"
  have hfive := ((((hversion.map SourceMap.mk).seq hsources (by simp)).seq hnames (by simp)).seq
    hmappings (by simp)).seq hfile (by simp)
  cases sourcesContent with
  | nil =>
    have habsent := Shape.accepts_absent (Decoder.list Decoder.string) "sourcesContent" []
    exact (hfive.seq habsent (by simp)).decodes _
  | cons content contents =>
    have hcontents :=
      Shape.accepts_optional (decodes_textsValue (content :: contents)) "sourcesContent" []
    exact (hfive.seq hcontents (by simp)).decodes _

/-- **A source map is read back from its text**, whatever characters its texts have. -/
theorem parse_text {m : SourceMap} (h : m.version ≤ Width.byte.max) : parse m.text = .ok m := by
  have htext : m.text.toList = m.toValue.print := String.toList_ofList
  rw [parse, htext]
  exact (decodes_toValue h).readText

/-- The source map that a script carries: what follows the last start of an annotation, decoded. -/
def ofScript? (code : String) : Option SourceMap := do
  let payload ← Text.afterLast? annotationStart.toList code.toList
  let bytes ← Base64.decode? payload
  let json ← String.fromUTF8? bytes.toByteArray
  (parse json).toOption

theorem exists_annotationStart_eq : ∃ head, annotationStart.toList = head ++ [','] :=
  ⟨annotationStart.toList.dropLast, by decide⟩

/-- **A script carries the map of its annotation**, whatever the script is. -/
theorem ofScript?_annotationText {m : SourceMap} (h : m.version ≤ Width.byte.max)
    (script : String) :
    ofScript? (script ++ annotationText m.text) = some m := by
  obtain ⟨head, hhead⟩ := exists_annotationStart_eq
  have hcode : (script ++ annotationText m.text).toList
      = script.toList ++ (head ++ [','] ++ Base64.encode (utf8Bytes m.text)) := by
    rw [annotationText, String.toList_append, String.toList_append, String.toList_ofList, hhead]
  rw [ofScript?, hcode, hhead, Text.afterLast?_append (Base64.comma_notMem_encode _)]
  simp only [Option.bind_eq_bind, Option.bind_some, Base64.decode?_encode, fromUTF8?_utf8Bytes,
    parse_text h]
  rfl

/-! ## The map of one source

All mappings of a script name the file that it was generated from. So its map has one source, with
the text of the document if there is one. -/

namespace Builder

/-- Mappings of sources that are listed already add none. -/
theorem addMappings_of_listed (ms : List Mapping) : ∀ b : Builder,
    (∀ m ∈ ms, m.source ∈ b.sourceNames) →
      (b.addMappings ms).sources = b.sources ∧ (b.addMappings ms).file = b.file := by
  induction ms with
  | nil =>
    intro b _
    exact ⟨rfl, rfl⟩
  | cons m ms ih =>
    intro b hlisted
    obtain ⟨hm, hms⟩ := List.forall_mem_cons.mp hlisted
    -- the induction goes over builders, since each mapping makes a new one with the same sources
    have hsources : (b.addMapping m).sources = b.sources := by
      have hany : b.sources.any (·.name = m.source) = true := by simpa [sourceNames] using hm
      exact if_pos hany
    have hnext := ih (b.addMapping m) (by rw [sourceNames, hsources]; exact hms)
    rw [hsources] at hnext
    exact hnext

end Builder

end SourceMap

section

variable {texts : Texts} {options : Options} {tree : Trace.Tree} {m : Mapping}

theorem source_of_mem_nodeMappings {node : Trace.Node}
    (h : m ∈ nodeMappings texts options tree node) :
    m.source = texts.filename := by
  unfold nodeMappings at h
  split at h
  · cases h
  · split at h
    · cases h
    · split at h
      · cases h
      · dsimp only at h
        split at h
        · rcases List.mem_cons.mp h with rfl | h
          · rfl
          · rw [List.mem_singleton.mp h]
        · rw [List.mem_singleton.mp h]

theorem source_of_mem_synthesize (h : m ∈ synthesize texts options tree) :
    m.source = texts.filename := by
  obtain ⟨id, -, hm⟩ := List.mem_flatMap.mp h
  split at hm
  · exact source_of_mem_nodeMappings hm
  · cases hm

end

theorem sourceMapOf_fields {filename : String} (sourceText : Option String)
    {mappings : List Mapping} (h : ∀ m ∈ mappings, m.source = filename) :
    let map := sourceMapOf filename sourceText mappings
    map.version = 3 ∧ map.sources = [filename] ∧ map.file = filename ++ ".js"
      ∧ map.sourcesContent = [sourceText.getD missingSourceText] := by
  let b := (SourceMap.Builder.new (filename ++ ".js")).setContent filename
    (sourceText.getD missingSourceText)
  have hb : b.sources = [⟨filename, some (sourceText.getD missingSourceText)⟩] := by
    simp [b, SourceMap.Builder.new, SourceMap.Builder.setContent, SourceMap.Builder.mentionSource]
  have hlisted : ∀ m ∈ mappings, m.source ∈ b.sourceNames := by
    intro m hm
    rw [SourceMap.Builder.sourceNames, hb, h m hm]
    exact List.mem_singleton.mpr rfl
  obtain ⟨hsources, hfile⟩ := SourceMap.Builder.addMappings_of_listed mappings b hlisted
  rw [hb] at hsources
  refine ⟨rfl, ?_, hfile, ?_⟩
  · show (b.addMappings mappings).sourceNames = _
    rw [SourceMap.Builder.sourceNames, hsources]
    rfl
  · show (b.addMappings mappings).contents = _
    rw [SourceMap.Builder.contents, hsources]
    rfl

/-! ## The annotation -/

/-- **A script carries its source map.** Take any name, document and options for which a script is
generated. With a source map asked for, the code is the lowered text, two newlines and the
annotation of the map; what follows the last start of an annotation in the code decodes to that map;
and the map is of revision 3, with one source, the text of that source, and the name of the file.
Without, the code is the lowered text alone. The mappings are the same in both cases. -/
theorem Document.generate_annotation {d : Document} {uri : String} {options : Options}
    {generated : Generated} (h : d.generate uri options = .ok generated) :
    ∃ script tree mappings map, d.module.lower options.maxDepth = .ok (script, tree)
      ∧ d.generate uri { options with sourceMap := true }
          = .ok ⟨script ++ "\n\n" ++ annotationText map.text, mappings, some map⟩
      ∧ d.generate uri { options with sourceMap := false } = .ok ⟨script, mappings, none⟩
      ∧ SourceMap.ofScript? (script ++ "\n\n" ++ annotationText map.text) = some map
      ∧ map.version = 3 ∧ map.sources = [filenameOf uri] ∧ map.file = filenameOf uri ++ ".js"
      ∧ map.sourcesContent = [d.sourceText.getD missingSourceText] := by
  obtain ⟨script, tree, hlower, -⟩ := exists_lower_of_generate h
  have hfields := sourceMapOf_fields d.sourceText fun m hm =>
    source_of_mem_synthesize (show m ∈ d.mappingsOf uri options script tree from hm)
  refine ⟨script, tree, d.mappingsOf uri options script tree, _, hlower, ?_, ?_, ?_, hfields⟩
  · rw [generate_eq_map, hlower]
    rfl
  · rw [generate_eq_map, hlower]
    rfl
  · exact SourceMap.ofScript?_annotationText (by rw [hfields.1]; decide) _

/-- A document that defines a name with an annotation in it, from a text with quotes and control
characters. -/
def Document.misleading : Document :=
  ⟨some "\x00\"é😀\n\\", none,
    [.definition ⟨annotationStart ++ "e30=", none, [], .call ⟨"x", none⟩ [] none, none⟩]⟩

theorem Document.generate_annotation_misleading :
    ∃ generated map, Document.misleading.generate "a/😀" Options.default = .ok generated
      ∧ generated.sourceMap = some map ∧ SourceMap.ofScript? generated.code = some map
      ∧ map.sources = ["😀"] ∧ map.file = "😀.js" ∧ map.sourcesContent = ["\x00\"é😀\n\\"] := by
  have hheight : Document.misleading.module.height ≤ Options.default.maxDepth := by decide
  obtain ⟨generated, h⟩ := (Document.misleading.generate_eq "a/😀" Options.default).1 hheight
  obtain ⟨script, tree, mappings, map, _, hon, _, hread, _, hsources, hfile, hcontent⟩ :=
    generate_annotation h
  have hname : filenameOf "a/😀" = "😀" := by decide
  rw [hname] at hsources hfile
  exact ⟨_, map, hon, rfl, hread, hsources, hfile, hcontent⟩

end ArithScript
