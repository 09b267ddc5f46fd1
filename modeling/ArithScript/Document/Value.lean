import ArithScript.Json.Printer
import ArithScript.Module

/-!
# Documents as JSON values

The JSON value of each construct, with the members of a record in the order of its fields and the
tag of a variant in front. What is absent is written `null`, apart from the range of a region,
which is left out.
-/

set_option autoImplicit false

namespace ArithScript

open Json

/-- The JSON value of a position. -/
def Position.toValue (p : Position) : Value :=
  .object [("line", .integer p.line), ("character", .integer p.character)]

/-- The JSON value of a range. -/
def Range.toValue (r : Range) : Value :=
  .object [("start", r.start.toValue), ("end", r.stop.toValue)]

/-- The JSON value of a region. -/
def Region.toValue (r : Region) : Value :=
  .object <| [("offset", .integer r.offset), ("end", .integer r.stop)] ++
    match r.range with
    | some range => [("range", range.toValue)]
    | none => []

/-- The JSON value of a region that may be absent. -/
def regionValue : Option Region → Value
  | some r => r.toValue
  | none => .null

/-- The member for the region of a construct. -/
def regionMember (r : Option Region) : String × Value := ("region", regionValue r)

/-- The JSON value of a reference. -/
def Reference.toValue (r : Reference) : Value :=
  .object [("name", .string r.name), regionMember r.region]

mutual

/-- The JSON value of an expression. -/
def Expr.toValue : Expr → Value
  | .literal value region =>
    .object [("$type", .string "NumberLiteral"), ("value", .real value), regionMember region]
  | .binary operator operatorRegion left right region =>
    .object [("$type", .string "BinaryExpression"), ("operator", .string operator.symbol),
      ("operatorRegion", regionValue operatorRegion), ("left", left.toValue),
      ("right", right.toValue), regionMember region]
  | .call function arguments region =>
    .object [("$type", .string "FunctionCall"), ("function", function.toValue),
      ("arguments", .array (Expr.toValues arguments)), regionMember region]

/-- The JSON values of some expressions. -/
def Expr.toValues : List Expr → List Value
  | [] => []
  | e :: es => e.toValue :: Expr.toValues es

end

/-- The JSON value of a parameter. -/
def Parameter.toValue (p : Parameter) : Value :=
  .object [("name", .string p.name), regionMember p.region]

/-- The members of a definition. -/
def Definition.toMembers (d : Definition) : List (String × Value) :=
  [("name", .string d.name), ("nameRegion", regionValue d.nameRegion),
    ("parameters", .array (d.parameters.map Parameter.toValue)), ("body", d.body.toValue),
    regionMember d.region]

/-- The JSON value of a definition by itself. -/
def Definition.toValue (d : Definition) : Value := .object d.toMembers

/-- The members of an evaluation. -/
def Evaluation.toMembers (e : Evaluation) : List (String × Value) :=
  [("expression", e.expression.toValue), regionMember e.region]

/-- The JSON value of a statement. -/
def Statement.toValue : Statement → Value
  | .definition d => .object (("$type", .string "Definition") :: d.toMembers)
  | .evaluation e => .object (("$type", .string "Evaluation") :: e.toMembers)

/-- The JSON value of a module. -/
def Module.toValue (m : Module) : Value :=
  .object [regionMember m.region, ("statements", .array (m.statements.map Statement.toValue))]

/-- The JSON value of a document. -/
def Document.toValue (d : Document) : Value :=
  .object [("sourceText", match d.sourceText with
      | some text => .string text
      | none => .null),
    ("module", d.module.toValue)]

/-- The JSON text of a document. -/
def Document.text (d : Document) : String := d.toValue.text

end ArithScript
