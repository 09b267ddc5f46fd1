import ArithScript.Decimal.Numeral
import ArithScript.Lowering.Action

/-!
# Lowering expressions

An expression becomes an expression of the script. Binary operands are put in parentheses, so the
precedence of the script's operators never matters; literals and calls stand as they are, apart from
a literal below zero as the base of a power, which the script would refuse. A name that is not in
scope becomes `undefined`.
-/

set_option autoImplicit false

namespace ArithScript.Lowering

open ArithScript.Lowering.Action

/-- What stands in the script for a name that refers to nothing. -/
def unresolved : String := "undefined"

/-- Writes the name that a reference stands for. -/
def callee (function : Reference) : Action :=
  withScope fun scope =>
    append (match scope.resolve? function.name with
      | some symbol => symbol.name
      | none => unresolved)

/-- Writes an operand, given what writes it without parentheses. -/
def operand (e : Expr) (wrap : Bool) (body : Action) : Action :=
  if e.isAtomic && !wrap then body else traced e.region (all [append "(", body, append ")"])

mutual

/-- Writes an expression. -/
def expression : Expr → Action
  | .literal value region => nested (traced region (append (String.ofList (numeral value))))
  | .binary operator operatorRegion left right region =>
    let negativeBase := operator = .pow && left.isNegativeLiteral
    nested <| traced region <| all [
      operand left negativeBase (expression left),
      append " ",
      traced operatorRegion (append operator.scriptToken),
      append " ",
      operand right false (expression right)]
  | .call function arguments region =>
    nested <| traced region <| all [
      traced function.region (callee function),
      if arguments.isEmpty then all []
      else traced (Expr.argumentsRegion arguments) <| all [
        append "(", separated ", " (expressions arguments), append ")"]]

/-- The actions that write some expressions. -/
def expressions : List Expr → List Action
  | [] => []
  | e :: es => expression e :: expressions es

end

end ArithScript.Lowering
