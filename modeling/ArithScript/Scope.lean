import ArithScript.Module

/-!
# Scope

What a name refers to at a place of a module: the first parameter of that name of the definition at
hand, or else the first definition of that name in the module, provided that it stands before the
statement at hand. A definition is therefore not in scope in its own body.
-/

set_option autoImplicit false

namespace ArithScript

/-- What a name may refer to. -/
inductive Symbol where
  | definition (definition : Definition)
  | parameter (parameter : Parameter)
  deriving Repr, Inhabited

/-- The name of a symbol. -/
def Symbol.name : Symbol → String
  | .definition d => d.name
  | .parameter p => p.name

/-- The definitions of a module, and the place at which names are looked up. -/
structure Scope where
  /-- Every definition with the index of its statement, in order. -/
  definitions : List (Nat × Definition)
  /-- The parameters of the definition at hand; `none` outside of definitions. -/
  parameters : Option (List Parameter)
  /-- The index of the statement at hand. -/
  current : Nat
  deriving Repr, Inhabited

namespace Scope

/-- The definitions among statements that are numbered from `index` on. -/
def definitionsFrom : Nat → List Statement → List (Nat × Definition)
  | _, [] => []
  | index, .definition d :: statements => (index, d) :: definitionsFrom (index + 1) statements
  | index, .evaluation _ :: statements => definitionsFrom (index + 1) statements

/-- The scope at the first statement of a module. -/
def ofModule (m : Module) : Scope := ⟨definitionsFrom 0 m.statements, none, 0⟩

/-- Moves to a statement. -/
def enterStatement (index : Nat) (scope : Scope) : Scope := { scope with current := index }

/-- Moves into a definition with the given parameters. -/
def enterDefinition (parameters : List Parameter) (scope : Scope) : Scope :=
  { scope with parameters := some parameters }

/-- Moves out of a definition. -/
def exitDefinition (scope : Scope) : Scope := { scope with parameters := none }

/-- The parameter at hand with a name. -/
def parameter? (scope : Scope) (name : String) : Option Parameter :=
  scope.parameters.bind fun parameters => parameters.find? (·.name = name)

/-- The first definition with a name, if it stands before the statement at hand. -/
def definition? (scope : Scope) (name : String) : Option Definition :=
  match scope.definitions.find? (·.2.name = name) with
  | some (index, d) => if index < scope.current then some d else none
  | none => none

/-- What a name refers to. -/
def resolve? (scope : Scope) (name : String) : Option Symbol :=
  match scope.parameter? name with
  | some p => some (.parameter p)
  | none => (scope.definition? name).map .definition

end Scope

end ArithScript
