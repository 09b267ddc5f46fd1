import ArithScript.Lowering.Expr

/-!
# Lowering modules

A module becomes one anonymous function of the script. Each statement is a line of it: a definition
with parameters a constant bound to a function, a definition without parameters a constant whose
value is tracked as well, an evaluation an assignment to the tracker. The function returns the
tracker, so its value is that of the last statement that has one.
-/

set_option autoImplicit false

namespace ArithScript.Lowering

open ArithScript.Lowering.Action

/-- The variable that holds the value of the last statement. -/
def tracker : String := "lastComputableExpressionValue"

/-- The indentation of statements. -/
def indent : String := "    "

/-- Writes a parameter. -/
def parameter (p : Parameter) : Action := traced p.region (append p.name)

/-- Writes a definition with parameters. -/
def functionDefinition (d : Definition) : Action :=
  traced d.region <| all [
    append "const ",
    traced d.nameRegion (append d.name),
    append " = (",
    separated ", " (d.parameters.map parameter),
    append ") => ",
    inDefinition d.parameters (expression d.body),
    append ";"]

/-- Writes a definition without parameters. The keyword gets a node of its own, which carries the
mapping of the statement. -/
def constantDefinition (d : Definition) : Action :=
  traced d.region <| all [
    traced d.region (append "const"),
    append " ",
    traced d.nameRegion (append d.name),
    append " = ",
    append tracker,
    append " = ",
    expression d.body,
    append ";"]

/-- Writes a definition. -/
def definition (d : Definition) : Action :=
  if d.parameters.isEmpty then constantDefinition d else functionDefinition d

/-- Writes an evaluation. -/
def evaluation (e : Evaluation) : Action :=
  traced e.region <| all [
    append tracker,
    append " = ",
    expression e.expression,
    append ";"]

/-- Writes a statement. -/
def statement : Statement → Action
  | .definition d => definition d
  | .evaluation e => evaluation e

/-- The actions that write statements numbered from `index` on, each on a line of its own. -/
def statementsFrom : Nat → List Statement → List Action
  | _, [] => []
  | index, s :: ss =>
    all [enterStatement index, append "\n", append indent, statement s]
      :: statementsFrom (index + 1) ss

/-- Writes the script of a module. -/
def script (m : Module) : Action :=
  all [
    append "\"use strict\";\n(() => \x7b\n",
    append indent,
    traced m.region <| all [
      append "let ",
      append tracker,
      append ";",
      all (statementsFrom 0 m.statements),
      append "\n\n",
      append indent,
      append "return ",
      append tracker,
      append ";"],
    append "\n\x7d)"]

end ArithScript.Lowering

namespace ArithScript

/-- The script of a module and its trace. Fails if an expression is higher than allowed. -/
def Module.lower (m : Module) (maxDepth : Nat) :
    Except NestingTooDeep (String × Trace.Tree) :=
  match Lowering.script m (Lowering.Emitter.ofModule m maxDepth) with
  | (.ok (), e) => .ok e.writer.finish
  | (.error failure, _) => .error failure

end ArithScript
