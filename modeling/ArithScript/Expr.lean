import ArithScript.Double
import ArithScript.Operator
import ArithScript.Region

/-!
# Expressions

Arithmetic expressions as a front end hands them over: number literals, binary expressions and
calls. A reference to a parameter or to a definition without parameters is a call without
arguments. Every construct may carry the region it was read from.
-/

set_option autoImplicit false

namespace ArithScript

/-- A name that refers to a definition or a parameter. -/
structure Reference where
  name : String
  region : Option Region
  deriving DecidableEq, Repr, Inhabited

/-- An expression. -/
inductive Expr where
  | literal (value : Double) (region : Option Region)
  | binary (operator : Operator) (operatorRegion : Option Region) (left right : Expr)
      (region : Option Region)
  | call (function : Reference) (arguments : List Expr) (region : Option Region)
  deriving Repr, Inhabited

namespace Expr

/-- The region of an expression. -/
def region : Expr → Option Region
  | literal _ region => region
  | binary _ _ _ _ region => region
  | call _ _ region => region

/-- An atomic expression stands as an operand without parentheses. -/
def isAtomic : Expr → Bool
  | literal _ _ => true
  | binary _ _ _ _ _ => false
  | call _ _ _ => true

/-- Whether an expression is a literal below zero. -/
def isNegativeLiteral : Expr → Bool
  | literal value _ => value.isNegative
  | _ => false

/-- The region from the first argument of a call to the last, if both have one. -/
def argumentsRegion (arguments : List Expr) : Option Region := do
  let first ← (← arguments.head?).region
  let last ← (← arguments.getLast?).region
  return first.cover last

mutual

/-- The height of an expression: one more than the greatest height of its operands or arguments. -/
def height : Expr → Nat
  | literal _ _ => 1
  | binary _ _ left right _ => 1 + max left.height right.height
  | call _ arguments _ => 1 + maxHeight arguments

/-- The greatest height of some expressions, zero if there are none. -/
def maxHeight : List Expr → Nat
  | [] => 0
  | e :: es => max e.height (maxHeight es)

end

end Expr

end ArithScript
