import ArithScript.Expr

/-!
# Modules and documents

A module is a list of statements: definitions, with or without parameters, and expressions to
evaluate. A document is a module together with the source text it was read from, where that is
known.
-/

set_option autoImplicit false

namespace ArithScript

/-- A parameter of a definition. -/
structure Parameter where
  name : String
  region : Option Region
  deriving DecidableEq, Repr, Inhabited

/-- A definition of a constant, or of a function if it has parameters. -/
structure Definition where
  name : String
  nameRegion : Option Region
  parameters : List Parameter
  body : Expr
  region : Option Region
  deriving Repr, Inhabited

/-- An expression to evaluate. -/
structure Evaluation where
  expression : Expr
  region : Option Region
  deriving Repr, Inhabited

/-- A statement of a module. -/
inductive Statement where
  | definition (definition : Definition)
  | evaluation (evaluation : Evaluation)
  deriving Repr, Inhabited

/-- The region of a statement. -/
def Statement.region : Statement → Option Region
  | .definition d => d.region
  | .evaluation e => e.region

/-- The expression of a statement: the body of a definition, or what is evaluated. -/
def Statement.expression : Statement → Expr
  | .definition d => d.body
  | .evaluation e => e.expression

/-- A module. -/
structure Module where
  region : Option Region
  statements : List Statement
  deriving Repr, Inhabited

/-- A module with its source text. -/
structure Document where
  sourceText : Option String
  module : Module
  deriving Repr, Inhabited

end ArithScript
