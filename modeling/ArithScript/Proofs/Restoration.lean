import ArithScript.Proofs.Rendering
import ArithScript.Proofs.WriterExtension
import Mathlib.Data.List.Basic

/-!
# Lowering restores its state

An action that fails stops where it is, inside any number of expressions, nodes and definitions, and
what it has written stays. This module says that nothing else of it stays. `Restores` is the
statement for one action: for a scope, a limit and a nesting, the action ends in one way, writes one
marked text and leaves one scope behind, whatever the writer holds. It is stated before the writer
is known, so it says two things at once: a failing action writes marked text too, in which every
stretch that was begun is ended, and an action learns nothing from what was written before it.

A sequence that fails in the middle writes the marked text of its first actions and of the part of
the failing one, and this is all there is to failure. Everything else is one lemma for each action.
-/

set_option autoImplicit false

namespace ArithScript.Lowering

open Trace (Writer)

/-- The scope may have moved to another statement and out of a definition. -/
structure Settles (before after : Scope) : Prop where
  definitions : after.definitions = before.definitions
  parameters : after.parameters = before.parameters ∨ after.parameters = none

/-- **What an action does, however it ends.** Its outcome and the marked text that it writes depend
on the scope, the limit and the nesting. The limit and the nesting are as before, and the scope
moves as the relation allows. -/
def Restores (moves : Scope → Scope → Prop) (action : Action) : Prop :=
  ∀ (scope : Scope) (maxDepth depth : Nat),
    ∃ (outcome : Outcome) (fragments : List Fragment) (after : Scope), moves scope after ∧
      ∀ w : Writer, action ⟨w, scope, maxDepth, depth⟩
        = (outcome, ⟨Fragment.writeAll fragments w, after, maxDepth, depth⟩)

/-- Movements of the scope that may be made one after the other. -/
structure Composes (moves : Scope → Scope → Prop) : Prop where
  refl : ∀ s, moves s s
  trans : ∀ {s t u}, moves s t → moves t u → moves s u

theorem composes_eq : Composes Eq := ⟨fun _ => rfl, Eq.trans⟩

theorem composes_settles : Composes Settles where
  refl _ := ⟨rfl, Or.inl rfl⟩
  trans h h' := by
    refine ⟨h'.definitions.trans h.definitions, ?_⟩
    rcases h'.parameters with hsame | hnone
    · rw [hsame]
      exact h.parameters
    · exact Or.inr hnone

namespace Composes

variable {moves : Scope → Scope → Prop} (hmoves : Composes moves)
include hmoves

theorem append (s : String) : Restores moves (Action.append s) := by
  intro scope maxDepth depth
  exact ⟨.ok (), [.text s], scope, hmoves.refl scope, fun _ => rfl⟩

theorem nil : Restores moves (Action.all []) := by
  intro scope maxDepth depth
  exact ⟨.ok (), [], scope, hmoves.refl scope, fun _ => rfl⟩

theorem cons {action : Action} {actions : List Action} (first : Restores moves action)
    (rest : Restores moves (Action.all actions)) :
    Restores moves (Action.all (action :: actions)) := by
  intro scope maxDepth depth
  obtain ⟨outcome, fragments, between, hbetween, hfirst⟩ := first scope maxDepth depth
  cases outcome with
  | error failure =>
    refine ⟨.error failure, fragments, between, hbetween, fun w => ?_⟩
    rw [Action.all, hfirst]
  | ok _ =>
    obtain ⟨outcome, more, after, hafter, hrest⟩ := rest between maxDepth depth
    refine ⟨outcome, fragments ++ more, after, hmoves.trans hbetween hafter, fun w => ?_⟩
    rw [Action.all, hfirst, Fragment.writeAll_append]
    exact hrest _

theorem nested {action : Action} (body : Restores moves action) :
    Restores moves (Action.nested action) := by
  intro scope maxDepth depth
  by_cases hdepth : maxDepth ≤ depth
  · refine ⟨.error ⟨maxDepth⟩, [], scope, hmoves.refl scope, fun w => ?_⟩
    rw [Action.nested, if_pos hdepth]
    rfl
  · obtain ⟨outcome, fragments, after, hafter, hbody⟩ := body scope maxDepth (depth + 1)
    refine ⟨outcome, fragments, after, hafter, fun w => ?_⟩
    rw [Action.nested, if_neg hdepth, hbody]
    rfl

/-- A sequence, of which each action is known. -/
theorem all : ∀ {actions : List Action}, actions.Forall (Restores moves) →
    Restores moves (Action.all actions)
  | [], _ => hmoves.nil
  | action :: actions, each => by
    obtain ⟨first, rest⟩ := (List.forall_cons _ action actions).mp each
    exact hmoves.cons first (all rest)

theorem separated (separator : String) :
    ∀ {actions : List Action}, (∀ action ∈ actions, Restores moves action) →
      Restores moves (Action.separated separator actions)
  | [], _ => hmoves.nil
  | [action], each => hmoves.cons (each action List.mem_cons_self) hmoves.nil
  | action :: next :: actions, each => by
    have rest := separated separator fun a (ha : a ∈ next :: actions) =>
      each a (List.mem_cons_of_mem _ ha)
    exact hmoves.cons (each action List.mem_cons_self) (hmoves.cons (hmoves.append separator) rest)

end Composes

namespace Restores

variable {moves : Scope → Scope → Prop} {action : Action}

/-- Inside a node the action writes a marked stretch, which ends even if the action fails. -/
theorem traced (region : Option Region) (body : Restores moves action) :
    Restores moves (Action.traced region action) := by
  intro scope maxDepth depth
  obtain ⟨outcome, fragments, after, hafter, hbody⟩ := body scope maxDepth depth
  refine ⟨outcome, [.marked region fragments], after, hafter, fun w => ?_⟩
  cases region with
  | none => exact hbody w
  | some region =>
    rw [Action.traced, hbody]
    rfl

theorem withScope {body : Scope → Action} (each : ∀ s, Restores moves (body s)) :
    Restores moves (Action.withScope body) := by
  intro scope maxDepth depth
  exact each scope scope maxDepth depth

theorem enterStatement (index : Nat) : Restores Settles (Action.enterStatement index) := by
  intro scope maxDepth depth
  exact ⟨.ok (), [], scope.enterStatement index, ⟨rfl, Or.inl rfl⟩, fun _ => rfl⟩

/-- A definition is left however its body ends, and then no parameters are set. -/
theorem inDefinition (parameters : List Parameter) (body : Restores Eq action) :
    Restores Settles (Action.inDefinition parameters action) := by
  intro scope maxDepth depth
  obtain ⟨outcome, fragments, after, rfl, hbody⟩ :=
    body (scope.enterDefinition parameters) maxDepth depth
  refine ⟨outcome, fragments, scope.exitDefinition, ⟨rfl, Or.inr rfl⟩, fun w => ?_⟩
  rw [Action.inDefinition, hbody]
  rfl

end Restores

/-! ## Expressions, statements and modules

Each construct is put together from actions that restore, so it restores. -/

section

variable {moves : Scope → Scope → Prop} (hmoves : Composes moves)
include hmoves

theorem restores_operand {action : Action} (e : Expr) (wrap : Bool) (body : Restores moves action) :
    Restores moves (operand e wrap action) := by
  unfold operand
  split
  · exact body
  · exact Restores.traced e.region <| hmoves.all ⟨hmoves.append "(", body, hmoves.append ")"⟩

/-- **Lowering an expression** never moves the scope, so any movement may be claimed of it. -/
theorem restores_expression (e : Expr) : Restores moves (expression e) := by
  cases e with
  | literal value region =>
    rw [expression]
    exact hmoves.nested ((hmoves.append _).traced region)
  | binary operator operatorRegion left right region =>
    have token := (hmoves.append operator.scriptToken).traced operatorRegion
    have space := hmoves.append " "
    rw [expression]
    exact hmoves.nested <| Restores.traced region <| hmoves.all
      ⟨restores_operand hmoves left _ (restores_expression left), space, token, space,
        restores_operand hmoves right _ (restores_expression right)⟩
  | call function arguments region =>
    have name : Restores moves (callee function) := .withScope fun _ => hmoves.append _
    have each : ∀ action ∈ arguments.map expression, Restores moves action := by
      intro action haction
      obtain ⟨argument, hargument, rfl⟩ := List.mem_map.mp haction
      exact restores_expression argument
    rw [expression, expressions_eq_map]
    refine hmoves.nested <| Restores.traced region <| hmoves.all ⟨name.traced function.region, ?_⟩
    split
    · exact hmoves.nil
    · exact Restores.traced _ <| hmoves.all
        ⟨hmoves.append "(", hmoves.separated ", " each, hmoves.append ")"⟩
termination_by sizeOf e

end

theorem restores_statement (s : Statement) : Restores Settles (statement s) := by
  have text := composes_settles.append
  cases s with
  | evaluation e =>
    have expression := restores_expression composes_settles e.expression
    exact Restores.traced e.region <| composes_settles.all
      ⟨text tracker, text " = ", expression, text ";"⟩
  | definition d =>
    have name := (text d.name).traced d.nameRegion
    rw [statement, definition]
    split
    · have body := restores_expression composes_settles d.body
      exact Restores.traced d.region <| composes_settles.all
        ⟨(text "const").traced d.region, text " ", name, text " = ", text tracker, text " = ", body,
          text ";"⟩
    · have body := (restores_expression composes_eq d.body).inDefinition d.parameters
      have parameters : ∀ action ∈ d.parameters.map parameter, Restores Settles action := by
        intro action haction
        obtain ⟨p, -, rfl⟩ := List.mem_map.mp haction
        exact (text p.name).traced p.region
      exact Restores.traced d.region <| composes_settles.all
        ⟨text "const ", name, text " = (", composes_settles.separated ", " parameters,
          text ") => ", body, text ";"⟩

theorem restores_statementsFrom (index : Nat) (ss : List Statement) :
    Restores Settles (Action.all (statementsFrom index ss)) := by
  have text := composes_settles.append
  induction ss generalizing index with
  | nil => exact composes_settles.nil
  | cons s ss ih =>
    refine composes_settles.cons ?_ (ih (index + 1))
    exact composes_settles.all
      ⟨.enterStatement index, text "\n", text indent, restores_statement s⟩

/-- **Lowering a module**, whether it comes to its end or not. -/
theorem restores_script (m : Module) : Restores Settles (script m) := by
  have text := composes_settles.append
  have statements := restores_statementsFrom 0 m.statements
  refine composes_settles.all ⟨text _, text indent, Restores.traced m.region ?_, text _⟩
  exact composes_settles.all ⟨text "let ", text tracker, text ";", statements, text "\n\n",
    text indent, text "return ", text tracker, text ";"⟩

/-! ## Calls

An emitter may be used for several things one after the other, some of which fail. After any such
calls a module is lowered as it would be by an emitter that has just been made. -/

/-- A call of lowering. -/
inductive Call where
  | expression (e : Expr)
  | statement (s : Statement)
  | module (m : Module)

/-- What a call does. -/
def Call.action : Call → Action
  | .expression e => Lowering.expression e
  | .statement s => Lowering.statement s
  | .module m => script m

theorem Call.restores (call : Call) : Restores Settles call.action := by
  cases call with
  | expression e => exact restores_expression composes_settles e
  | statement s => exact restores_statement s
  | module m => exact restores_script m

/-- The emitter after some calls, of which any may have failed. -/
def Emitter.after (e : Emitter) (calls : List Call) : Emitter :=
  calls.foldl (fun e call => (call.action e).2) e

/-- A fresh emitter for the definitions of a module, with the limit of another emitter and at the
same nesting. -/
def Emitter.fresh (e : Emitter) (made : Module) : Emitter :=
  { Emitter.ofModule made e.maxDepth with depth := e.depth }

/-- **An emitter after a call, beside the emitter before it.** -/
structure AsBefore (before after : Emitter) : Prop where
  depth : after.depth = before.depth
  maxDepth : after.maxDepth = before.maxDepth
  /-- The table of definitions is the same, and parameters are as they were or gone. -/
  scope : Settles before.scope after.scope
  /-- The open nodes are the same. The text goes on, and every node that was there is still there
  with its source and target. -/
  writer : before.writer.Extends after.writer
  /-- Whatever node is new is closed. -/
  closed : (∀ id ∈ before.writer.active, id < before.writer.nodes.size) →
    ∀ id, before.writer.nodes.size ≤ id → id ∉ after.writer.active

theorem Restores.asBefore {action : Action} (h : Restores Settles action) (e : Emitter) :
    AsBefore e (action e).2 := by
  obtain ⟨outcome, fragments, after, hafter, haction⟩ := h e.scope e.maxDepth e.depth
  have hwriter := Fragment.extends_writeAll fragments e.writer
  rw [haction e.writer]
  exact ⟨rfl, rfl, hafter, hwriter, fun hopen _ => hwriter.not_mem_active hopen⟩

theorem settles_after (e : Emitter) (calls : List Call) :
    (e.after calls).depth = e.depth ∧ (e.after calls).maxDepth = e.maxDepth
      ∧ Settles e.scope (e.after calls).scope := by
  induction calls generalizing e with
  | nil => exact ⟨rfl, rfl, composes_settles.refl e.scope⟩
  | cons call calls ih =>
    obtain ⟨hdepth, hmaxDepth, hscope, -, -⟩ := call.restores.asBefore e
    obtain ⟨hdepth', hmaxDepth', hscope'⟩ := ih (call.action e).2
    exact ⟨hdepth'.trans hdepth, hmaxDepth'.trans hmaxDepth, composes_settles.trans hscope hscope'⟩

/-- It does not matter at which statement a module is begun. -/
theorem script_enterStatement (m : Module) (e : Emitter) (index : Nat) :
    (script m { e with scope := e.scope.enterStatement index }).1 = (script m e).1
      ∧ (script m { e with scope := e.scope.enterStatement index }).2.writer
        = (script m e).2.writer := by
  obtain ⟨region, statements⟩ := m
  -- the first statement is entered before any name is looked up, and without one nothing is
  cases statements <;> cases region <;> exact ⟨rfl, rfl⟩

/-- **Lowering a module has one result and one text** for a table of definitions, parameters, a
limit and a nesting. -/
theorem exists_script_text (m : Module) (definitions : List (Nat × Definition))
    (parameters : Option (List Parameter)) (maxDepth depth : Nat) :
    ∃ (outcome : Outcome) (text : String), ∀ e : Emitter,
      e.scope.definitions = definitions → e.scope.parameters = parameters →
      e.maxDepth = maxDepth → e.depth = depth →
        (script m e).1 = outcome ∧ (script m e).2.writer.text = e.writer.text ++ text := by
  obtain ⟨outcome, fragments, after, -, hscript⟩ :=
    restores_script m ⟨definitions, parameters, 0⟩ maxDepth depth
  refine ⟨outcome, String.ofList (Fragment.allChars fragments), ?_⟩
  rintro e rfl rfl rfl rfl
  obtain ⟨houtcome, hwriter⟩ := script_enterStatement m e 0
  have hbegun : script m { e with scope := e.scope.enterStatement 0 } = _ := hscript e.writer
  rw [← houtcome, ← hwriter, hbegun]
  refine ⟨rfl, String.toList_inj.mp ?_⟩
  rw [Fragment.chars_writeAll, String.toList_append, String.toList_ofList]

/-- **Lowering restores its state.** Take any emitter, in the middle of anything, and a call of
lowering that may succeed or fail. Afterwards the emitter is as before, apart from the text and the
nodes that the call has added and, behind a definition, the parameters, which are cleared. An
expression leaves the scope alone altogether.

So calls leave no trace for later ones. If no parameters are set, then after any calls a module has
the outcome and adds the text that it has on a fresh emitter for the same definitions. -/
theorem calls_restore :
    (∀ (call : Call) (e : Emitter),
        AsBefore e (call.action e).2
          ∧ ∀ x : Expr, call = .expression x → (call.action e).2.scope = e.scope)
      ∧ ∀ (made : Module) (e : Emitter),
          e.scope.definitions = (Scope.ofModule made).definitions → e.scope.parameters = none →
          ∀ (calls : List Call) (m : Module),
            (script m (e.after calls)).1 = (script m (e.fresh made)).1
              ∧ ∃ text, (script m (e.after calls)).2.writer.text
                = (e.after calls).writer.text ++ text
                ∧ (script m (e.fresh made)).2.writer.text = text := by
  constructor
  · intro call e
    refine ⟨call.restores.asBefore e, ?_⟩
    rintro x rfl
    obtain ⟨outcome, fragments, after, rfl, haction⟩ :=
      restores_expression composes_eq x e.scope e.maxDepth e.depth
    exact congrArg (·.2.scope) (haction e.writer)
  · intro made e hdefinitions hparameters calls m
    obtain ⟨hdepth, hmaxDepth, hscope⟩ := settles_after e calls
    obtain ⟨outcome, text, hscript⟩ :=
      exists_script_text m e.scope.definitions none e.maxDepth e.depth
    -- a failed call may drop the parameters, and there were none to drop
    have hcleared : (e.after calls).scope.parameters = none := by
      rcases hscope.parameters with hsame | hnone
      · exact hsame.trans hparameters
      · exact hnone
    obtain ⟨hlate, hlateText⟩ :=
      hscript (e.after calls) hscope.definitions hcleared hmaxDepth hdepth
    obtain ⟨hfresh, hfreshText⟩ := hscript (e.fresh made) hdefinitions.symm rfl rfl rfl
    refine ⟨hlate.trans hfresh.symm, text, hlateText, ?_⟩
    rw [hfreshText]
    exact String.empty_append

/-- The definition `DEF f(a): a + (a * a);`, of height three. -/
def tallModule : Module :=
  ⟨some ⟨0, 22, none⟩, [.definition ⟨"f", some ⟨4, 5, none⟩, [⟨"a", some ⟨6, 7, none⟩⟩],
    .binary .add none (.call ⟨"a", none⟩ [] none)
      (.binary .mul none (.call ⟨"a", none⟩ [] none) (.call ⟨"a", none⟩ [] none)
        (some ⟨14, 21, none⟩)) none, some ⟨0, 22, none⟩⟩]⟩

/-- The evaluation of `f`. -/
def shortModule : Module := ⟨none, [.evaluation ⟨.call ⟨"f", none⟩ [] none, none⟩]⟩

/-- An emitter for the definition that allows a height of two. -/
def tallEmitter : Emitter := Emitter.ofModule tallModule 2

/-- One call fails in the body of the definition, with four nodes open, and another succeeds. Then
an evaluation is lowered as if there had been none. -/
theorem calls_restore_tallModule :
    (script tallModule tallEmitter).1 = .error ⟨2⟩
      ∧ AsBefore tallEmitter (script tallModule tallEmitter).2
      ∧ ∃ late text, late = tallEmitter.after [.module tallModule, .statement (.evaluation ⟨
            .call ⟨"f", none⟩ [] none, none⟩)]
        ∧ (script shortModule late).1 = .ok ()
        ∧ (script shortModule late).2.writer.text = late.writer.text ++ text
        ∧ (script shortModule tallEmitter).2.writer.text = text := by
  have hrefused : (script tallModule tallEmitter).1 = .error ⟨2⟩ := by
    have hheight : tallModule.height = 3 := by decide
    refine (writes_script tallModule).refused _ ?_
    rw [hheight]
    rintro (h | h)
    · cases h
    · exact absurd h (by decide)
  have haccepted : (script shortModule tallEmitter).1 = .ok () := by
    have hheight : shortModule.height = 1 := by decide
    rw [(writes_script shortModule).done tallEmitter (by rw [hheight]; exact Or.inr (by decide))]
  obtain ⟨houtcome, text, hlate, hfresh⟩ := calls_restore.2 tallModule tallEmitter rfl rfl
    [.module tallModule, .statement (.evaluation ⟨.call ⟨"f", none⟩ [] none, none⟩)] shortModule
  have hsame : tallEmitter.fresh tallModule = tallEmitter := rfl
  rw [hsame] at houtcome hfresh
  exact ⟨hrefused, (calls_restore.1 (.module tallModule) tallEmitter).1, _, text, rfl,
    houtcome.trans haccepted, hlate, hfresh⟩

end ArithScript.Lowering
