import ArithScript.Proofs.CallSites
import ArithScript.Proofs.DecodingDepth
import ArithScript.Proofs.MappingOrigins

/-!
# The depth of documents

A document text is read without a limit of the reader's own. Its brackets have been counted before,
and that is enough: expressions are not higher than the brackets around them allow, in whichever
form they are written, and no more brackets are opened than have been counted
(`Document.parse_bounds_depth`).

Each expression costs a bracket, and so do the document, its module, the list of statements and the
statement around it. That makes four for what surrounds an expression of a statement.
-/

set_option autoImplicit false

namespace ArithScript

open Json Json.Shape Json.Decoder

/-! ## Forms whose values have no height

Positions, ranges, regions and names bring brackets with them but no expressions. The bound that is
shown of them is the trivial one. -/

theorem Position.bounded_decoder : Position.decoder.Bounded fun _ _ => True := by
  have hfield (name : String) := bounded_required (bounded_natural .coordinate) name
  exact (Shape.Bounded.decoder (P := fun _ _ => True)
    (.seq (.map (hfield _) fun _ _ _ _ _ => trivial) (hfield _)) _).mono fun _ _ _ => trivial

theorem Range.bounded_decoder : Range.decoder.Bounded fun _ _ => True := by
  have hfield (name : String) := bounded_required Position.bounded_decoder name
  exact (Shape.Bounded.decoder (P := fun _ _ => True)
    (.seq (.map (hfield _) fun _ _ _ _ _ => trivial) (hfield _)) _).mono fun _ _ _ => trivial

/-- Places hold numbers and nothing else. They have to be bounded all the same, because reading them
must not depend on the limit. -/
theorem Region.bounded_decoder : Region.decoder.Bounded fun _ _ => True := by
  have hfield (name : String) := bounded_required (bounded_natural .offset) name
  exact (Shape.Bounded.decoder (P := fun _ _ => True)
    (.seq (.seq (.map (hfield _) fun _ _ _ _ _ _ _ => trivial) (hfield _))
      (bounded_nullable Range.bounded_decoder _)) _).mono fun _ _ _ => trivial

theorem bounded_regionMember (name : String) :
    (Shape.nullable name Region.decoder).Bounded fun _ o => ∀ x ∈ o, True :=
  bounded_nullable Region.bounded_decoder name

/-- References and parameters are a name with a region. -/
theorem bounded_named {α : Type} (make : String → Option Region → α) (name : String) :
    (Shape.decoder name (make <$> required "name" .string <*> regionField)).Bounded
    fun _ _ => True :=
  (Shape.Bounded.decoder (P := fun _ _ => True)
    (.seq (.map (bounded_required bounded_string _) fun _ _ _ _ _ => trivial)
      (bounded_regionMember _))
    _).mono fun _ _ _ => trivial

/-! ## Expressions

Inside a record of an expression there is room for one bracket less, and the expressions in it are
lower by one. So the height is bounded by the nesting itself. -/

namespace Expr

theorem bounded_literalShape : literalShape.Bounded fun n e => e.height ≤ n + 1 := by
  refine .seq (.map (bounded_required (bounded_buffered_any _) _) ?_) (bounded_regionMember _)
  intro n value _ region _
  exact Nat.le_add_left 1 n

section Inner

variable {inner : Decoder Expr} (h : inner.Bounded fun n e => e.height ≤ n)
include h

/-- A binary expression is one higher than the higher of its operands. -/
theorem bounded_binaryShape : (binaryShape inner).Bounded fun n e => e.height ≤ n + 1 := by
  refine .seq (.seq (.seq (.seq (.map (bounded_required (bounded_buffered_any _) _) ?_)
    (bounded_regionMember _)) (bounded_required h _)) (bounded_required h _))
    (bounded_regionMember _)
  intro n operator _ operatorRegion _ left hleft right hright region _
  rw [height]
  omega

/-- An argument lies inside one more bracket than an operand does. -/
theorem bounded_callShape : (callShape inner).Bounded fun n e => e.height ≤ n + 1 := by
  refine .seq (.seq (.map (bounded_required (bounded_named _ _) _) ?_)
    (bounded_optional_list h _)) (bounded_regionMember _)
  intro n function _ arguments harguments region _
  have hheight : maxHeight arguments ≤ n := by
    refine maxHeight_le_iff.mpr fun e he => ?_
    obtain ⟨k, rfl, hk⟩ := harguments e he
    exact Nat.le_succ_of_le hk
  rw [height]
  omega

/-- The bracket of a variant is that of its record: the content is nested as the variant is. -/
theorem bounded_variants : (variants inner).Bounded fun n e => e.height ≤ n := by
  have hcase {shape : Shape Expr} (hshape : shape.Bounded fun n e => e.height ≤ n + 1)
      (name : String) :
      Converts (fun n e => e.height ≤ n) (shape.convert name) := by
    refine (hshape.converts name).mono ?_
    rintro _ e ⟨k, rfl, hk⟩
    exact hk
  intro tagged htagged
  simp only [variants, List.mem_cons, List.not_mem_nil, or_false] at htagged
  rcases htagged with rfl | rfl | rfl
  · exact hcase bounded_literalShape _
  · exact hcase (bounded_binaryShape h) _
  · exact hcase (bounded_callShape h) _

end Inner

/-- By induction on the bound of the conversion: what is inside is converted with one less. -/
theorem converts_convert (bound : Nat) : Converts (fun n e => e.height ≤ n) (convert bound) := by
  induction bound with
  | zero => exact fun _ _ h => nomatch h
  | succ bound ih => exact (bounded_variants (bounded_buffered ih)).converts

theorem bounded_decoder (nesting : Nat) : (decoder nesting).Bounded fun n e => e.height ≤ n :=
  bounded_buffered (converts_convert nesting)

end Expr

/-! ## Statements, modules and documents

From here on each form adds its own bracket to what surrounds an expression. -/

theorem Definition.bounded_shape {body : Decoder Expr} (h : body.Bounded fun n e => e.height ≤ n) :
    (Definition.shape body).Bounded fun n definition => definition.body.height ≤ n := by
  refine .seq (.seq (.seq (.seq (.map (bounded_required bounded_string _) ?_)
    (bounded_regionMember _)) (bounded_optional_list (bounded_named _ _) _))
    (bounded_required h _)) (bounded_regionMember _)
  intro n name _ nameRegion _ parameters _ body hbody region _
  exact hbody

theorem Evaluation.bounded_shape {expression : Decoder Expr}
    (h : expression.Bounded fun n e => e.height ≤ n) :
    (Evaluation.shape expression).Bounded fun n evaluation => evaluation.expression.height ≤ n := by
  refine .seq (.map (bounded_required h _) ?_) (bounded_regionMember _)
  intro n expression hexpression region _
  exact hexpression

/-- The record of a statement is one bracket around its expression. -/
theorem Statement.bounded_variants :
    Statement.variants.Bounded fun n s => s.expression.height + 1 ≤ n := by
  intro tagged htagged
  simp only [Statement.variants, List.mem_cons, List.not_mem_nil, or_false] at htagged
  rcases htagged with rfl | rfl
  -- The conversion of a body is bounded by the nesting of the content, and any bound will do.
  · intro v s hs n hn
    have hshape := (Definition.bounded_shape (Expr.bounded_decoder v.nesting)).map
      (f := Statement.definition) (Q := fun n s => s.expression.height ≤ n) fun _ _ h => h
    obtain ⟨k, rfl, hk⟩ := hshape.converts "Definition" v s hs n hn
    exact Nat.succ_le_succ hk
  · intro v s hs n hn
    have hshape := (Evaluation.bounded_shape (Expr.bounded_decoder v.nesting)).map
      (f := Statement.evaluation) (Q := fun n s => s.expression.height ≤ n) fun _ _ h => h
    obtain ⟨k, rfl, hk⟩ := hshape.converts "Evaluation" v s hs n hn
    exact Nat.succ_le_succ hk

/-- Two more brackets: that of the list of statements and that of the module. -/
theorem Module.bounded_decoder :
    Module.decoder.Bounded fun n m => ∀ s ∈ m.statements, s.expression.height + 3 ≤ n := by
  refine (Shape.Bounded.decoder (P := fun n m => ∀ s ∈ m.statements, s.expression.height + 2 ≤ n)
    (.seq (.map (bounded_regionMember _) ?_)
      (bounded_optional_list Statement.bounded_variants.decoder _)) _).mono ?_
  · intro n region _ statements hstatements s hs
    obtain ⟨k, rfl, hk⟩ := hstatements s hs
    exact Nat.succ_le_succ hk
  · rintro _ m ⟨k, rfl, hk⟩ s hs
    exact Nat.succ_le_succ (hk s hs)

theorem Document.bounded_decoder :
    Document.decoder.Bounded fun n d => ∀ s ∈ d.module.statements, s.expression.height + 4 ≤ n := by
  refine (Shape.Bounded.decoder
    (P := fun n d => ∀ s ∈ d.module.statements, s.expression.height + 3 ≤ n)
    (.seq (.map (bounded_nullable bounded_string _) ?_)
      (bounded_required Module.bounded_decoder _)) _).mono ?_
  · intro n sourceText _ module hmodule
    exact hmodule
  · rintro _ m ⟨k, rfl, hk⟩ s hs
    exact Nat.succ_le_succ (hk s hs)

/-! ## Parsed documents

Parsing counts the brackets, reads the text and fills in the ranges. The first bounds what the
second may find, and the third changes no height. -/

theorem Expr.Context.height_le_plug (C : Expr.Context) (e : Expr) :
    e.height ≤ (C.plug e).height := by
  induction C with
  | hole => exact Nat.le_refl _
  | left operator operatorRegion inner right region ih =>
    rw [plug, height]
    omega
  | right operator operatorRegion left inner region ih =>
    rw [plug, height]
    omega
  | argument function earlier inner later region ih =>
    rw [plug, height, maxHeight_append, maxHeight]
    omega

/-- An expression occurs in a module, by itself or inside another. -/
def Module.Contains (m : Module) (e : Expr) : Prop :=
  ∃ s ∈ m.statements, ∃ C : Expr.Context, s.expression = C.plug e

theorem Module.Contains.height_le {m : Module} {e : Expr} (h : m.Contains e) :
    e.height ≤ m.height := by
  obtain ⟨s, hs, C, hplug⟩ := h
  have hheight :=
    Expr.maxHeight_le_iff.mp (Nat.le_refl m.height) s.expression (List.mem_map_of_mem hs)
  exact Nat.le_trans (C.height_le_plug e) (hplug ▸ hheight)

namespace Document

theorem within_of_checkNesting {cs : List Char} {maxDepth : Nat}
    (h : checkNesting cs maxDepth = .ok ()) :
    Within (nestingLimit maxDepth) 0 cs := by
  rw [checkNesting_eq_ite] at h
  split at h
  · next hcounted => exact ⟨Nat.zero_le _, hcounted⟩
  · cases h

/-- A text cannot have more brackets than characters, so a reader that may open as many brackets as
the text has characters has no limit. -/
theorem readText_of_within {text : String} {limit bound : Nat} (h : Within limit 0 text.toList)
    (hbound : limit ≤ bound) : readText (decoder.read bound) text.toList = read text := by
  have hlength : Within text.toList.length 0 text.toList :=
    ⟨Nat.zero_le _, nestingWithin_of_length_le (by omega)⟩
  refine readText_congr ?_
  -- The smaller of both is a limit that the text keeps and that neither reader falls short of.
  by_cases hle : limit ≤ text.toList.length
  · exact bounded_decoder.steady h (by omega) (by omega)
  · exact bounded_decoder.steady hlength (by omega) (by omega)

/-- With the brackets counted, a reader that stops at the limit reads what the unlimited one
reads. -/
theorem readText_eq_read {text : String} {maxDepth bound : Nat}
    (hbound : nestingLimit maxDepth ≤ bound) (h : checkNesting text.toList maxDepth = .ok ()) :
    readText (decoder.read bound) text.toList = read text :=
  readText_of_within (within_of_checkNesting h) hbound

theorem checkNesting_of_parse {text : String} {maxDepth : Nat} {d : Document}
    (h : parse text maxDepth = .ok d) : checkNesting text.toList maxDepth = .ok () := by
  unfold parse at h
  dsimp only at h
  cases hcheck : checkNesting text.toList maxDepth with
  | error refusal =>
    rw [hcheck] at h
    cases h
  | ok _ => rfl

/-- What is read and passes the check is parsed, and its ranges are filled in. -/
theorem parse_of_read {text : String} {maxDepth : Nat} {d : Document} (hread : read text = .ok d)
    (h : checkNesting text.toList maxDepth = .ok ()) : parse text maxDepth = .ok d.fill := by
  unfold parse
  unfold read at hread
  dsimp only
  rw [h, hread]
  rfl

/-- The nesting of the tree behind a text bounds the heights in the document, and the count bounds
that nesting. -/
theorem height_of_read {text : String} {maxDepth : Nat} {d : Document} (hread : read text = .ok d)
    (h : checkNesting text.toList maxDepth = .ok ()) :
    d.module.height + 4 ≤ nestingLimit maxDepth := by
  obtain ⟨rest, hdecoder⟩ := exists_of_readText hread
  obtain ⟨t, ht, hheights⟩ := bounded_decoder.read hdecoder
  have hnesting := ((within_of_checkNesting h).leads ht).1
  have hstatements := hheights (nestingLimit maxDepth) (by omega)
  -- A module without statements has no height and no brackets to pay for it.
  have hfour : 4 ≤ nestingLimit maxDepth := Nat.le_min.mpr ⟨by omega, by decide⟩
  have hheight : d.module.height ≤ nestingLimit maxDepth - 4 := by
    refine Expr.maxHeight_le_iff.mpr fun e he => ?_
    obtain ⟨s, hs, rfl⟩ := List.mem_map.mp he
    exact Nat.le_sub_of_add_le (hstatements s hs)
  omega

/-- **Accepted documents have bounded depth.** The brackets of a text are counted before anything
else. If the text is accepted, all expressions in it are at least four below the limit, in the
document as it is read and as it is when its ranges have been filled in. Whether it is accepted or
not, reading it opens no more brackets than the limit allows: a reader that stops there has the same
outcome. -/
theorem parse_bounds_depth (text : String) (maxDepth : Nat) :
    (∀ d, parse text maxDepth = .ok d → ∃ plain, read text = .ok plain ∧ d = plain.fill
        ∧ ∀ e, plain.module.Contains e ∨ d.module.Contains e →
          e.height + 4 ≤ min (2 * maxDepth + 16) maxNesting)
      ∧ (checkNesting text.toList maxDepth = .ok () →
        ∀ bound, min (2 * maxDepth + 16) maxNesting ≤ bound →
          readText (decoder.read bound) text.toList = read text) := by
  refine ⟨fun d hparse => ?_, fun hcheck bound hbound => readText_eq_read hbound hcheck⟩
  obtain ⟨plain, hread, rfl⟩ := exists_read_of_parse hparse
  have hheight := height_of_read hread (checkNesting_of_parse hparse)
  refine ⟨plain, hread, rfl, fun e he => ?_⟩
  have hle : e.height ≤ plain.module.height := by
    rcases he with he | he
    · exact he.height_le
    · exact height_fill plain ▸ he.height_le
  exact Nat.le_trans (Nat.add_le_add_right hle 4) hheight

/-- Additions inside one another, as arrays with the tag in front. -/
def additions : Nat → List Char
  | 0 => "[\"NumberLiteral\",1]".toList
  | n + 1 => "[\"BinaryExpression\",\"+\",null,".toList ++ additions n
    ++ ",[\"NumberLiteral\",2]]".toList

/-- A document with a member that no document has, a module written as an array, and a statement
whose tag comes last. -/
def mixedForms : List Char :=
  "\x7b\"note\":[[]],\"module\":[null,[\x7b\"expression\":".toList ++ additions 11
    ++ ",\"$type\":\"Evaluation\"\x7d]]\x7d".toList

/-- Height twelve is reached with the least limit. -/
theorem parse_bounds_depth_mixedForms :
    readText (decoder.read 16) mixedForms = read (.ofList mixedForms)
      ∧ ∃ plain : Document, parse (.ofList mixedForms) 0 = .ok plain.fill ∧ plain.module.height = 12
        ∧ ∀ e, plain.fill.module.Contains e → e.height + 4 ≤ 16 := by
  obtain ⟨hdepth, hsteady⟩ := parse_bounds_depth (.ofList mixedForms) 0
  have hcounted : nestingWithin 16 .outside 0 mixedForms = true := by decide +kernel
  have hlimit : nestingLimit 0 = 16 := by decide
  have hcheck : checkNesting (String.ofList mixedForms).toList 0 = .ok () := by
    rw [String.toList_ofList, checkNesting_eq_ite, hlimit, if_pos hcounted]
  have hsteady := hsteady hcheck 16 (by decide)
  rw [String.toList_ofList] at hsteady
  have hheight : (readText (decoder.read 16) mixedForms).toOption.map (·.module.height)
      = some 12 := by
    decide +kernel
  obtain ⟨plain, hplain, hheight⟩ := Option.map_eq_some_iff.mp hheight
  have hread : read (.ofList mixedForms) = .ok plain := by
    rw [← hsteady]
    cases hresult : readText (decoder.read 16) mixedForms with
    | error failure =>
      rw [hresult] at hplain
      cases hplain
    | ok d =>
      rw [hresult] at hplain
      cases hplain
      rfl
  have hparse := parse_of_read hread hcheck
  obtain ⟨_, -, -, hbound⟩ := hdepth _ hparse
  exact ⟨hsteady, plain, hparse, hheight,
    fun e he => Nat.le_trans (hbound e (.inr he)) (Nat.min_le_left _ _)⟩

end Document

end ArithScript
