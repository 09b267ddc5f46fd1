import ArithScript.Document.Nesting
import ArithScript.Document.Ranges
import ArithScript.Json.Decoder

/-!
# The JSON form of documents

Each construct of a document is a record, and statements and expressions are tagged variants. The
forms stand here once, for reading text and for converting values alike; `toValue` writes the same
forms back.

Expressions contain expressions, so their conversion recurses. It is bounded by the nesting of the
value at hand: each expression inside another lies at least one bracket deeper.

To parse a document, its text is checked for its nesting, read, and completed with the ranges that
its source text determines. The nesting check comes first, so it wins over every other fault, and it
is what bounds the depth of reading.
-/

set_option autoImplicit false

namespace ArithScript

open Json

/-! ## Places -/

/-- The form of positions. -/
def Position.decoder : Decoder Position :=
  Shape.decoder "Position" <|
    Position.mk <$> .required "line" (.natural .coordinate)
      <*> .required "character" (.natural .coordinate)

/-- The form of ranges. -/
def Range.decoder : Decoder Range :=
  Shape.decoder "PositionRange" <|
    Range.mk <$> .required "start" Position.decoder <*> .required "end" Position.decoder

/-- The form of regions. -/
def Region.decoder : Decoder Region :=
  Shape.decoder "SourceRegion" <|
    Region.mk <$> .required "offset" (.natural .offset) <*> .required "end" (.natural .offset)
      <*> .nullable "range" Range.decoder

/-- The field that most constructs have for their region. -/
def regionField : Shape (Option Region) := .nullable "region" Region.decoder

/-! ## Expressions -/

/-- The form of references. -/
def Reference.decoder : Decoder Reference :=
  Shape.decoder "Reference" <| Reference.mk <$> .required "name" .string <*> regionField

/-- The form of operators: the symbol as a tag. -/
def Operator.decoder : Decoder Operator :=
  .buffered <| convertTagOnly <| Operator.all.map fun operator => (operator.symbol, operator)

namespace Expr

/-- The form of literals. -/
def literalShape : Shape Expr :=
  Expr.literal <$> .required "value" .real <*> regionField

/-- The form of binary expressions, given that of their operands. -/
def binaryShape (operand : Decoder Expr) : Shape Expr :=
  Expr.binary <$> .required "operator" Operator.decoder
    <*> .nullable "operatorRegion" Region.decoder
    <*> .required "left" operand <*> .required "right" operand <*> regionField

/-- The form of calls, given that of their arguments. -/
def callShape (argument : Decoder Expr) : Shape Expr :=
  Expr.call <$> .required "function" Reference.decoder
    <*> .optional "arguments" argument.list [] <*> regionField

/-- The variants of expressions, given the form of the expressions inside them. -/
def variants (inner : Decoder Expr) : Variants Expr where
  name := "Expression"
  cases := [
    ("NumberLiteral", literalShape.convert "NumberLiteral"),
    ("BinaryExpression", (binaryShape inner).convert "BinaryExpression"),
    ("FunctionCall", (callShape inner).convert "FunctionCall")]

/-- Converts a value with fewer than `bound` nested arrays and objects. -/
def convert : Nat → Value → Except Cause Expr
  | 0, _ => .error .recursionLimit
  | bound + 1, v => (variants (.buffered (convert bound))).convert v

/-- The form of expressions inside a value of the given nesting. -/
def decoder (nesting : Nat) : Decoder Expr := .buffered (convert nesting)

end Expr

/-! ## Statements -/

/-- The form of parameters. -/
def Parameter.decoder : Decoder Parameter :=
  Shape.decoder "Parameter" <| Parameter.mk <$> .required "name" .string <*> regionField

/-- The form of definitions, given that of their bodies. -/
def Definition.shape (body : Decoder Expr) : Shape Definition :=
  Definition.mk <$> .required "name" .string <*> .nullable "nameRegion" Region.decoder
    <*> .optional "parameters" Parameter.decoder.list [] <*> .required "body" body <*> regionField

/-- The form of evaluations, given that of their expressions. -/
def Evaluation.shape (expression : Decoder Expr) : Shape Evaluation :=
  Evaluation.mk <$> .required "expression" expression <*> regionField

/-- The variants of statements. -/
def Statement.variants : Variants Statement where
  name := "Statement"
  cases := [
    ("Definition", fun v =>
      ((Definition.shape (Expr.decoder v.nesting)).map Statement.definition).convert
        "Definition" v),
    ("Evaluation", fun v =>
      ((Evaluation.shape (Expr.decoder v.nesting)).map Statement.evaluation).convert
        "Evaluation" v)]

/-! ## Modules and documents -/

/-- The form of modules. -/
def Module.decoder : Decoder Module :=
  Shape.decoder "Module" <|
    Module.mk <$> regionField <*> .optional "statements" Statement.variants.decoder.list []

/-- The form of documents. -/
def Document.decoder : Decoder Document :=
  Shape.decoder "Document" <|
    Document.mk <$> .nullable "sourceText" .string <*> .required "module" Module.decoder

/-! ## Parsing -/

namespace Document

/-- The brackets that a text may nest when its nesting has not been checked before. -/
def uncheckedNesting : Nat := 127

/-- Reads a document and does nothing else. -/
def parsePlain (text : String) : Except Json.Error Document :=
  Json.readText (decoder.read uncheckedNesting) text.toList

/-- Reads a document that is allowed expressions of the given height, and fills in its ranges. -/
def parse (text : String) (maxDepth : Nat) : Except Refusal Document := do
  let cs := text.toList
  (checkNesting cs maxDepth).mapError .nestingTooDeep
  let document ← (Json.readText (decoder.read cs.length) cs).mapError .invalidDocument
  return document.fill

end Document

end ArithScript
