import ArithScript.Document.Nesting
import ArithScript.Scope
import ArithScript.Trace.Writer

/-!
# Lowering actions

Lowering writes a script with its trace. It is a sequence of actions on an emitter, which holds the
writer, the scope and the nesting of the expression at hand. An action fails when an expression is
nested too deeply. A failure ends the sequence it occurs in, but it does not undo anything: what was
written stays, and every action that has opened a node, entered an expression or entered a
definition leaves it again whether it fails or not.

The actions below are all there are, and lowering is put together from them; so what holds of each
of them, and carries over from the parts of a sequence to the whole, holds of lowering.
-/

set_option autoImplicit false

namespace ArithScript.Lowering

/-- The state of lowering. -/
structure Emitter where
  writer : Trace.Writer
  scope : Scope
  /-- The greatest height of an expression. -/
  maxDepth : Nat
  /-- The number of expressions around the place at hand. -/
  depth : Nat
  deriving Repr

/-- The emitter at the start of a module. -/
def Emitter.ofModule (m : Module) (maxDepth : Nat) : Emitter where
  writer := Trace.Writer.start
  scope := Scope.ofModule m
  maxDepth := maxDepth
  depth := 0

/-- How an action ends. -/
abbrev Outcome := Except NestingTooDeep Unit

/-- A step of lowering: it changes the emitter, and may fail. -/
abbrev Action := Emitter → Outcome × Emitter

namespace Action

/-- Writes a text. -/
def append (text : String) : Action := fun e =>
  (.ok (), { e with writer := e.writer.append text })

/-- Does the actions in order, up to the first that fails. -/
def all : List Action → Action
  | [], e => (.ok (), e)
  | action :: actions, e =>
    match action e with
    | (.ok (), e) => all actions e
    | (.error failure, e) => (.error failure, e)

/-- Does an action inside a node of the trace, if there is a region for it. -/
def traced (source : Option Region) (body : Action) : Action := fun e =>
  match source with
  | none => body e
  | some region =>
    let id := e.writer.nodes.size
    let (outcome, e) := body { e with writer := e.writer.openNode region }
    (outcome, { e with writer := e.writer.close id })

/-- Does an action one level deeper, unless that is too deep. -/
def nested (body : Action) : Action := fun e =>
  if e.maxDepth ≤ e.depth then (.error ⟨e.maxDepth⟩, e)
  else
    let (outcome, e) := body { e with depth := e.depth + 1 }
    (outcome, { e with depth := e.depth - 1 })

/-- Moves to a statement. -/
def enterStatement (index : Nat) : Action := fun e =>
  (.ok (), { e with scope := e.scope.enterStatement index })

/-- Does an action inside a definition with the given parameters. -/
def inDefinition (parameters : List Parameter) (body : Action) : Action := fun e =>
  let (outcome, e) := body { e with scope := e.scope.enterDefinition parameters }
  (outcome, { e with scope := e.scope.exitDefinition })

/-- Does an action that depends on the scope. -/
def withScope (body : Scope → Action) : Action := fun e => body e.scope e

/-- Does the actions in order, with a text written between them. -/
def separated (separator : String) (actions : List Action) : Action :=
  all (actions.intersperse (append separator))

end Action

end ArithScript.Lowering
