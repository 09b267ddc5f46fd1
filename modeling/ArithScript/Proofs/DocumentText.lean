import ArithScript.Proofs.DocumentNesting
import ArithScript.Proofs.Generation
import ArithScript.Proofs.Regions

/-!
# Generation from text and from memory

A script can be generated from a document in memory or from its text. `generateText_eq_generate`
says that the two agree, on the script as on the refusal. There are three places where they could
part: the text could be misread, the ranges could be filled in differently, and the count of
brackets could refuse a text whose document is not refused. The first is settled by the form of
documents, the second because both fill in the same document, and the third because the count keeps
to the nesting of the value, which the height of its expressions bounds.
-/

set_option autoImplicit false

namespace ArithScript

open Json

theorem Document.height_fill (d : Document) : d.fill.module.height = d.module.height := by
  unfold Document.fill
  split
  · exact Module.height_fill _ _
  · rfl

/-! ## Reading a document back

A document is written as its JSON value. Its form says that it is decoded from there, within the
nesting of the value. -/

theorem Document.toList_text (d : Document) : d.text.toList = d.toValue.print :=
  String.toList_ofList

/-- The text of a document holds the document, and nothing else. -/
theorem Document.readText_text {d : Document} (h : d.Writable) :
    readText (Document.decoder.read d.toValue.print.length) d.toValue.print = .ok d :=
  (Document.decodes_toValue h).readText

/-- The count of brackets decides whether the text of a document is read; if it is, the document is
what is read, with its ranges filled in. -/
theorem Document.parse_text {d : Document} (h : d.Writable) (maxDepth : Nat) :
    Document.parse d.text maxDepth
      = if nestingWithin (nestingLimit maxDepth) .outside 0 d.toValue.print then .ok d.fill
        else .error (.nestingTooDeep ⟨maxDepth⟩) := by
  rw [Document.parse, d.toList_text, checkNesting_eq_ite, Document.readText_text h]
  split <;> rfl

/-- **The count of brackets refuses no document of the allowed height**, as long as its text fits
into the address space. -/
theorem Document.nestingWithin_text {d : Document} (hsize : d.text.utf8ByteSize ≤ maxNesting)
    {maxDepth : Nat} (hheight : d.module.height ≤ maxDepth) :
    nestingWithin (nestingLimit maxDepth) .outside 0 d.toValue.print = true := by
  have hlength : d.toValue.nesting ≤ d.text.utf8ByteSize := by
    rw [← Text.byteLength_toList, d.toList_text]
    exact Nat.le_trans (nesting_le_length_print _) (Text.length_le_byteLength _)
  have hnesting := d.nesting_toValue_le
  have hlimit : 0 + d.toValue.nesting ≤ nestingLimit maxDepth := by
    rw [nestingLimit, Nat.le_min]
    omega
  have hpasses := passes_print d.toValue 0 hlimit []
  rw [List.append_nil] at hpasses
  exact hpasses

/-! ## Generation

The text is refused for its brackets, or read and then refused for its height, or generated from.
The first never comes before the second would have come, because the limit for brackets leaves room
for every document of the allowed height. -/

/-- **Generation from text agrees with generation from memory**, for every document whose numbers
are of their widths, whose literals are read back from their numerals, and whose text fits into the
address space. The script is that of the document with its ranges filled in, if every expression is
of the allowed height. If one is not, the refusal is the same whether the count of brackets or the
lowering comes upon it. -/
theorem generateText_eq_generate {d : Document} (hwritable : d.Writable)
    (hsize : d.text.utf8ByteSize ≤ maxNesting) (uri : String) (options : Options) :
    generateText uri d.text options = (d.fill.generate uri options).mapError .nestingTooDeep
      ∧ (d.module.height ≤ options.maxDepth →
          ∃ generated, d.fill.generate uri options = .ok generated)
      ∧ (options.maxDepth < d.module.height →
          d.fill.generate uri options = .error ⟨options.maxDepth⟩) := by
  obtain ⟨haccepted, hrefused⟩ := d.fill.generate_eq uri options
  rw [d.height_fill] at haccepted hrefused
  refine ⟨?_, haccepted, hrefused⟩
  rw [generateText, Document.parse_text hwritable]
  split
  · rfl
  · next hcount =>
    -- The count refuses the text, so an expression is too high, and the lowering refuses it too.
    have hheight : options.maxDepth < d.module.height :=
      Nat.lt_of_not_le fun hheight => hcount (Document.nestingWithin_text hsize hheight)
    rw [hrefused hheight]
    rfl

/-- A document with a literal, a call, a text with escapes and regions with and without ranges. -/
def Document.sample : Document :=
  ⟨some "f(a) = a \"\n\"", none, [.definition ⟨"f", some ⟨0, 1, some ⟨⟨0, 0⟩, ⟨0, 1⟩⟩⟩,
    [⟨"a", some ⟨2, 3, none⟩⟩],
    .binary .add none (.call ⟨"f", none⟩ [.call ⟨"a", none⟩ [] none] (some ⟨7, 8, none⟩))
      (.literal ⟨0x3FF8000000000000⟩ none) none, none⟩]⟩

theorem readsBack_sample : ReadsBack ⟨0x3FF8000000000000⟩ := by
  have hnumeral : realNumeral ⟨0x3FF8000000000000⟩ = ['1', '.', '5'] := by decide +kernel
  have hscale : scale? 15 (-1) = some ⟨0x3FF8000000000000⟩ := by
    rw [scale?, if_pos (by decide), shrink, if_pos (by decide)]
    decide +kernel
  have hscalar : scalar ['1', '.', '5']
      = (realNumber false 15 (-1) []).map fun read => (read.1.toValue, read.2) := rfl
  rw [ReadsBack, hnumeral, hscalar, realNumber, hscale]
  rfl

theorem Document.writable_sample : Document.sample.Writable := by
  simp [Document.sample, Document.Writable, Module.Writable, Statement.Writable,
    Definition.Writable, Parameter.Writable, Expr.Writable, Expr.AllWritable, RegionFits,
    Region.Fits, Range.Fits, Position.Fits, Width.max, readsBack_sample]

/-- The sample is refused at height two and generated at height three. -/
theorem generateText_eq_generate_sample :
    generateText "a/b" Document.sample.text { Options.default with maxDepth := 2 }
        = .error (.nestingTooDeep ⟨2⟩)
      ∧ ∃ generated, generateText "a/b" Document.sample.text { Options.default with maxDepth := 3 }
        = .ok generated := by
  have hsize : Document.sample.text.utf8ByteSize ≤ maxNesting := by
    rw [← Text.byteLength_toList, Document.toList_text]
    decide +kernel
  have hrefused := generateText_eq_generate Document.writable_sample hsize "a/b"
    { Options.default with maxDepth := 2 }
  have haccepted := generateText_eq_generate Document.writable_sample hsize "a/b"
    { Options.default with maxDepth := 3 }
  obtain ⟨generated, hgenerated⟩ := haccepted.2.1 (by decide)
  refine ⟨?_, generated, ?_⟩
  · rw [hrefused.1, hrefused.2.2 (by decide)]
    rfl
  · rw [haccepted.1, hgenerated]
    rfl

end ArithScript
