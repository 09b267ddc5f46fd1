import ArithScript.LineIndex
import ArithScript.Module

/-!
# Filling in ranges

A region that comes without a range gets one from the source text, wherever its offsets name places
in it. A range that is already there is kept. Each construct maps this over its own regions and
those of its parts.
-/

set_option autoImplicit false

namespace ArithScript

/-- A region with its range filled in. -/
def Region.fill (index : LineIndex) (r : Region) : Region :=
  match r.range with
  | some _ => r
  | none => { r with range := index.range? r.offset r.stop }

/-- A region that may be absent, with its range filled in. -/
def fillRegion (index : LineIndex) (r : Option Region) : Option Region := r.map (·.fill index)

/-- A reference with its range filled in. -/
def Reference.fill (index : LineIndex) (r : Reference) : Reference :=
  { r with region := fillRegion index r.region }

mutual

/-- An expression with all ranges filled in. -/
def Expr.fill (index : LineIndex) : Expr → Expr
  | .literal value region => .literal value (fillRegion index region)
  | .binary operator operatorRegion left right region =>
    .binary operator (fillRegion index operatorRegion) (left.fill index) (right.fill index)
      (fillRegion index region)
  | .call function arguments region =>
    .call (function.fill index) (Expr.fillAll index arguments) (fillRegion index region)

/-- Some expressions with all ranges filled in. -/
def Expr.fillAll (index : LineIndex) : List Expr → List Expr
  | [] => []
  | e :: es => e.fill index :: Expr.fillAll index es

end

/-- A parameter with its range filled in. -/
def Parameter.fill (index : LineIndex) (p : Parameter) : Parameter :=
  { p with region := fillRegion index p.region }

/-- A definition with all ranges filled in. -/
def Definition.fill (index : LineIndex) (d : Definition) : Definition where
  name := d.name
  nameRegion := fillRegion index d.nameRegion
  parameters := d.parameters.map (·.fill index)
  body := d.body.fill index
  region := fillRegion index d.region

/-- An evaluation with all ranges filled in. -/
def Evaluation.fill (index : LineIndex) (e : Evaluation) : Evaluation where
  expression := e.expression.fill index
  region := fillRegion index e.region

/-- A statement with all ranges filled in. -/
def Statement.fill (index : LineIndex) : Statement → Statement
  | .definition d => .definition (d.fill index)
  | .evaluation e => .evaluation (e.fill index)

/-- A module with all ranges filled in. -/
def Module.fill (index : LineIndex) (m : Module) : Module where
  region := fillRegion index m.region
  statements := m.statements.map (·.fill index)

/-- A document with all ranges filled in from its source text, if it has one. -/
def Document.fill (d : Document) : Document :=
  match d.sourceText with
  | some text => { d with module := d.module.fill (LineIndex.ofText text.toList) }
  | none => d

end ArithScript
