/-!
# Operators

The six binary operators of arithmetic expressions. Each has a symbol, by which documents name it,
and a token, by which the script does; the two differ for powers only.
-/

set_option autoImplicit false

namespace ArithScript

/-- A binary operator. -/
inductive Operator where
  | add
  | sub
  | mul
  | div
  | mod
  | pow
  deriving DecidableEq, Repr, Inhabited

namespace Operator

/-- Every operator, in the order in which messages list them. -/
def all : List Operator := [.add, .sub, .mul, .div, .mod, .pow]

/-- The symbol of an operator in a document. -/
def symbol : Operator → String
  | .add => "+"
  | .sub => "-"
  | .mul => "*"
  | .div => "/"
  | .mod => "%"
  | .pow => "^"

/-- The token of an operator in the script. -/
def scriptToken : Operator → String
  | .pow => "**"
  | other => other.symbol

/-- The operator with a symbol. -/
def ofSymbol? (symbol : String) : Option Operator := all.find? (·.symbol = symbol)

end Operator

end ArithScript
