import ArithScript.Proofs.DocumentDepth
import ArithScript.Proofs.RecordOrder
import ArithScript.Proofs.VariantOrder

/-!
# The order of members in documents

No form of a document depends on the order of members, and none depends on blanks. So two texts are
accepted alike if one has the members of the other in another order, at any depth, or other blanks
between them, and the same document is read from both (`Document.parse_ignores_order`).

The forms are taken one by one, from places to documents. Expressions contain expressions, and their
conversion is bounded by the nesting of a value, which rearranging does not change.
-/

set_option autoImplicit false

namespace ArithScript

open Json Json.Shape Json.Decoder

/-! ## Places and names

Positions, ranges and regions have members of fixed names. The forms with a name and an optional
region are all alike (`orderless_named`). -/

theorem Position.orderless_decoder : Position.decoder.Orderless := by
  have hfield (name : String) := orderless_required (orderless_natural .coordinate) name
  exact Shape.Orderless.decoder (.seq (.map (hfield _) _) (hfield _)) _

theorem Range.orderless_decoder : Range.decoder.Orderless := by
  have hfield (name : String) := orderless_required Position.orderless_decoder name
  exact Shape.Orderless.decoder (.seq (.map (hfield _) _) (hfield _)) _

/-- A region has two offsets and maybe a range. Each form is put together from those before it, with
one rule for each way to do so. -/
theorem Region.orderless_decoder : Region.decoder.Orderless := by
  have hfield (name : String) := orderless_required (orderless_natural .offset) name
  exact Shape.Orderless.decoder
    (.seq (.seq (.map (hfield _) _) (hfield _)) (orderless_nullable Range.orderless_decoder _)) _

theorem orderless_regionMember (name : String) : (Shape.nullable name Region.decoder).Orderless :=
  orderless_nullable Region.orderless_decoder name

/-- References and parameters are a name with a region. -/
theorem orderless_named {α : Type} (make : String → Option Region → α) (name : String) :
    (Shape.decoder name (make <$> required "name" .string <*> regionField)).Orderless :=
  Shape.Orderless.decoder
    (.seq (.map (orderless_required orderless_string _) _) (orderless_regionMember _)) _

theorem Operator.orderless_decoder : Operator.decoder.Orderless :=
  orderless_buffered (convertsAlike_convertTagOnly _)

theorem orderless_real : Decoder.real.Orderless :=
  orderless_buffered fun v v' h => by cases h <;> rfl

/-! ## Expressions

The variants of expressions take the decoder for inner expressions as an argument (`inner`). So each
form is shown to be indifferent to order under the assumption that `inner` is. -/

namespace Expr

theorem orderless_literalShape : literalShape.Orderless :=
  .seq (.map (orderless_required orderless_real _) _) (orderless_regionMember _)

section Inner

variable {inner : Decoder Expr} (h : inner.Orderless)
include h

/-- Operands are read by the decoder for inner expressions, about which nothing but its own
indifference to order is used. -/
theorem orderless_binaryShape : (binaryShape inner).Orderless :=
  .seq (.seq (.seq (.seq (.map (orderless_required Operator.orderless_decoder _) _)
    (orderless_regionMember _)) (orderless_required h _)) (orderless_required h _))
    (orderless_regionMember _)

theorem orderless_callShape : (callShape inner).Orderless :=
  .seq (.seq (.map (orderless_required (orderless_named _ _) _) _)
    (orderless_optional h.list _ _)) (orderless_regionMember _)

/-- Each kind of expression is a record, and the tag may stand anywhere among its members. -/
theorem orderless_variants : (variants inner).Orderless := by
  intro tagged htagged
  simp only [variants, List.mem_cons, List.not_mem_nil, or_false] at htagged
  rcases htagged with rfl | rfl | rfl
  · exact orderless_literalShape.converts _
  · exact (orderless_binaryShape h).converts _
  · exact (orderless_callShape h).converts _

end Inner

/-- By induction on the bound of the conversion: each kind converts its parts with one less. -/
theorem convertsAlike_convert (bound : Nat) : ConvertsAlike (convert bound) := by
  induction bound with
  | zero => exact fun _ _ _ => rfl
  | succ bound ih => exact (orderless_variants (orderless_buffered ih)).converts

/-- A text is read up to the tag and the content of an expression, and the content is converted in
memory. -/
theorem orderless_decoder (nesting : Nat) : (decoder nesting).Orderless :=
  orderless_buffered (convertsAlike_convert nesting)

end Expr

/-! ## Statements, modules and documents -/

theorem Definition.orderless_shape {body : Decoder Expr} (h : body.Orderless) :
    (Definition.shape body).Orderless :=
  .seq (.seq (.seq (.seq (.map (orderless_required orderless_string _) _)
    (orderless_regionMember _)) (orderless_optional (orderless_named _ _).list _ _))
    (orderless_required h _)) (orderless_regionMember _)

theorem Evaluation.orderless_shape {expression : Decoder Expr} (h : expression.Orderless) :
    (Evaluation.shape expression).Orderless :=
  .seq (.map (orderless_required h _) _) (orderless_regionMember _)

/-- A statement is a definition or an evaluation, and both contain an expression. -/
theorem Statement.orderless_variants : Statement.variants.Orderless := by
  intro tagged htagged
  simp only [Statement.variants, List.mem_cons, List.not_mem_nil, or_false] at htagged
  -- The bound of the expressions is the nesting of the content, and that of a rearrangement is no
  -- other.
  rcases htagged with rfl | rfl
  · intro v v' hv
    dsimp only
    rw [← hv.nesting_eq]
    exact ((Definition.orderless_shape (Expr.orderless_decoder _)).map _).converts _ hv
  · intro v v' hv
    dsimp only
    rw [← hv.nesting_eq]
    exact ((Evaluation.orderless_shape (Expr.orderless_decoder _)).map _).converts _ hv

theorem Module.orderless_decoder : Module.decoder.Orderless :=
  Shape.Orderless.decoder (.seq (.map (orderless_regionMember _) _)
    (orderless_optional Statement.orderless_variants.decoder.list _ _)) _

/-- **Documents are read without regard to the order of members.** -/
theorem Document.orderless_decoder : Document.decoder.Orderless :=
  Shape.Orderless.decoder (.seq (.map (orderless_nullable orderless_string _) _)
    (orderless_required Module.orderless_decoder _)) _

/-! ## Trees that are turned around

To exhibit a text and the same text with its members in another order, both are built at once. A
`Turned` item carries a tree with a text and a rearrangement with another text, together with the
proofs that they belong together; its constructors are those of JSON. -/

/-- A tree with a text of it, and the tree with the last members first, with a text of that. -/
structure Turned where
  tree : Tree
  turned : Tree
  text : List Char
  turnedText : List Char
  spells : tree.Spells text
  spells_turned : turned.Spells turnedText
  rearranges : tree.Rearranges turned

namespace Turned

/-- What stands in quotation marks as it is. -/
def bare (s : String) : List Char := s.toList.filter fun c => c ≠ '"' && c ≠ '\\' && 0x20 ≤ c.toNat

/-- What is left of a text without quotation marks, backslashes and control characters needs no
escapes. -/
theorem quoted_bare (s : String) : Quoted (bare s) := by
  rw [bare]
  induction s.toList with
  | nil => exact .nil
  | cons c cs ih =>
    rw [List.filter_cons]
    split
    · next hc =>
      simp only [Bool.and_eq_true, decide_eq_true_eq] at hc
      exact .plain hc.1.1 hc.1.2 hc.2 ih
    · exact ih

/-- A member with the same blanks wherever there may be blanks. -/
def memberText (blanks : List Char) (text : Turned → List Char) (m : String × Turned) : List Char :=
  blanks ++ quote (bare m.1) ++ blanks ++ ':' :: (blanks ++ text m.2 ++ blanks)

/-- The grammar has no order of its own: members may be listed in any. -/
theorem spells_members {blanks : List Char} (hblanks : Blank blanks) {tree : Turned → Tree}
    {text : Turned → List Char} (h : ∀ item, (tree item).Spells (text item))
    (ms : List (String × Turned)) :
    (Tree.object (ms.map fun m => (bare m.1, tree m.2))).Spells
      (bracketed '\x7b' '\x7d' (ms.map (memberText blanks text))) := by
  have hms (ms : List (String × Turned)) :
      Tree.MembersSpell (ms.map fun m => (bare m.1, tree m.2))
      (ms.map (memberText blanks text)) := by
    induction ms with
    | nil => exact .nil
    | cons m ms ih => exact .cons hblanks (quoted_bare m.1) hblanks hblanks (h m.2) hblanks ih
  cases ms with
  | nil => exact .emptyObject blank_nil
  | cons m ms => exact .object (hms (m :: ms))

/-- The blanks of a text that is turned around. -/
def gap : List Char := ['\n', ' ']

theorem blank_gap : Blank gap := List.all_iff_forall_prop.mp (by decide)

def scalar (token : List Char) (h : IsScalar token) : Turned where
  tree := .scalar token
  turned := .scalar token
  text := token
  turnedText := token
  spells := .scalar h
  spells_turned := .scalar h
  rearranges := .scalar token

def word (s : String) : Turned := scalar (quote (bare s)) (.string (quoted_bare s))

def digit (c : Char) (h : IsWhole [c]) : Turned := scalar [c] (.positive (.mk h .absent .absent))

def singleton (item : Turned) : Turned where
  tree := .array [item.tree]
  turned := .array [item.turned]
  text := bracketed '[' ']' [[] ++ item.text ++ []]
  turnedText := bracketed '[' ']' [gap ++ item.turnedText ++ gap]
  spells := .array (.cons blank_nil item.spells blank_nil .nil)
  spells_turned := .array (.cons blank_gap item.spells_turned blank_gap .nil)
  rearranges := .array (.cons item.rearranges .nil)

def object (ms : List (String × Turned)) : Turned where
  tree := .object (ms.map fun m => (bare m.1, m.2.tree))
  turned := .object (ms.reverse.map fun m => (bare m.1, m.2.turned))
  text := bracketed '\x7b' '\x7d' (ms.map (memberText [] text))
  turnedText := bracketed '\x7b' '\x7d' (ms.reverse.map (memberText gap turnedText))
  spells := spells_members blank_nil spells ms
  spells_turned := spells_members blank_gap spells_turned ms.reverse
  rearranges := by
    have hsame : List.Forall₂ (SameName Tree.Rearranges) (ms.map fun m => (bare m.1, m.2.tree))
        (ms.map fun m => (bare m.1, m.2.turned)) := by
      induction ms with
      | nil => exact .nil
      | cons m ms ih => exact .cons (.mk m.2.rearranges) ih
    exact .object hsame (ms.reverse_perm.symm.map _)

/-- Both texts of the item are whole texts, one of the tree and one of its rearrangement. -/
theorem isText (item : Turned) : item.tree.IsText item.text :=
  ⟨[], item.text, [], blank_nil, item.spells, blank_nil, (List.append_nil _).symm⟩

theorem isText_turned (item : Turned) : item.turned.IsText item.turnedText :=
  ⟨[], item.turnedText, [], blank_nil, item.spells_turned, blank_nil, (List.append_nil _).symm⟩

end Turned

/-! ## Parsed documents

A document that is parsed has been read, and its brackets have been counted. Both are the same for
every rearrangement of the tree behind the text. -/

namespace Document

/-- What is read into a document is a text of a tree. -/
theorem exists_isText_of_read {text : String} {d : Document} (h : read text = .ok d) :
    ∃ t : Tree, t.IsText text.toList := by
  refine isText_of_readText (fun hdecoder => ?_) h
  obtain ⟨t, ht, -⟩ := bounded_decoder.read hdecoder
  exact ⟨t, ht⟩

section Rearranged

variable {t t' : Tree} {text text' : String} (ht : t.Rearranges t') (htext : t.IsText text.toList)
  (htext' : t'.IsText text'.toList)
include ht htext htext'

/-- The bound of a reader is the length of its text, and that may change with the blanks. But the
nesting of the tree is below either. -/
theorem read_rearranged {d : Document} (h : read text = .ok d) : read text' = .ok d := by
  refine eq_ok_of_toOption ?_
  have hsame := orderless_decoder.toOption_readText ht htext htext'
  unfold read at h ⊢
  rw [← hsame, h]
  rfl

/-- The count of brackets measures the nesting of the tree, which rearranging keeps. -/
theorem checkNesting_rearranged (maxDepth : Nat) :
    checkNesting text.toList maxDepth = checkNesting text'.toList maxDepth := by
  rw [Tree.checkNesting_eq htext, Tree.checkNesting_eq htext', ht.nesting_eq]

end Rearranged

/-- **Neither the order of members nor blanks matter.** An accepted text is the text of a tree. Any
text of the tree, and of the tree with the members of its objects in another order, is accepted with
the same limit, and the same document is read from it. -/
theorem parse_ignores_order {text : String} {maxDepth : Nat} {d : Document}
    (h : parse text maxDepth = .ok d) :
    (∃ t : Tree, t.IsText text.toList)
      ∧ ∀ (t t' : Tree) (text' : String), t.IsText text.toList → t.Rearranges t' →
        t'.IsText text'.toList → parse text' maxDepth = .ok d := by
  obtain ⟨plain, hread, rfl⟩ := exists_read_of_parse h
  refine ⟨exists_isText_of_read hread, fun t t' text' htext ht htext' => ?_⟩
  have hcheck := checkNesting_rearranged ht htext htext' maxDepth
  exact parse_of_read (read_rearranged ht htext htext' hread) (hcheck ▸ checkNesting_of_parse h)

/-- The literal of a digit. -/
def literalItem (c : Char) (h : IsWhole [c]) : Turned :=
  .object [("$type", .word "NumberLiteral"), ("value", .digit c h)]

/-- A document that evaluates five minus one. -/
def subtraction : Turned :=
  have hone : IsWhole ['1'] := .digits (n := 1) (by decide) (by decide) (List.forall_mem_nil _)
  have hfive : IsWhole ['5'] := .digits (n := 5) (by decide) (by decide) (List.forall_mem_nil _)
  let difference : Turned := .object [("$type", .word "BinaryExpression"), ("operator", .word "-"),
    ("left", literalItem '5' hfive), ("right", literalItem '1' hone)]
  let region : Turned :=
    .object [("offset", .digit '0' (.zero (by decide))), ("end", .digit '5' hfive)]
  let evaluation : Turned :=
    .object [("$type", .word "Evaluation"), ("expression", difference), ("region", region)]
  .object [("sourceText", .word "5 - 1"),
    ("module", .object [("statements", .singleton evaluation)])]

/-- The document is accepted with the least limit, and so it is with tags that come last and blanks
everywhere. -/
theorem parse_ignores_order_subtraction :
    subtraction.text ≠ subtraction.turnedText
      ∧ ∃ d, parse (.ofList subtraction.text) 0 = .ok d ∧ d.module.height = 2
        ∧ parse (.ofList subtraction.turnedText) 0 = .ok d := by
  have hcounted : nestingWithin 16 .outside 0 subtraction.text = true := by decide +kernel
  have hlimit : nestingLimit 0 = 16 := by decide
  have hcheck : checkNesting (String.ofList subtraction.text).toList 0 = .ok () := by
    rw [String.toList_ofList, checkNesting_eq_ite, hlimit, if_pos hcounted]
  have hheight : (readText (decoder.read 16) subtraction.text).toOption.map (·.module.height)
      = some 2 := by
    decide +kernel
  obtain ⟨plain, hplain, hheight⟩ := Option.map_eq_some_iff.mp hheight
  have hread : read (.ofList subtraction.text) = .ok plain := by
    rw [← readText_eq_read (Nat.le_of_eq hlimit) hcheck, String.toList_ofList]
    exact eq_ok_of_toOption hplain
  have hparse := parse_of_read hread hcheck
  refine ⟨by decide +kernel, plain.fill, hparse, (height_fill plain).trans hheight, ?_⟩
  refine (parse_ignores_order hparse).2 subtraction.tree subtraction.turned _ ?_
    subtraction.rearranges ?_
  · rw [String.toList_ofList]
    exact subtraction.isText
  · rw [String.toList_ofList]
    exact subtraction.isText_turned

end Document

end ArithScript
