import ArithScript.Lowering.Module
import ArithScript.Proofs.Fragment

/-!
# What lowering writes

Lowering is an action on a mutable state that may fail half-way. Here is the same thing as a
function: the marked text of each construct (`Expr.fragment`, `Statement.fragment`,
`Module.fragments`), and the one number that decides about failure, the height. `Writes` ties an
action to the two, for every emitter that it may start from, and one lemma for each action says how
the tie composes. `Module.lower_eq` is then the whole of lowering in one line: a module that is not
too high is replayed on an empty writer, any other is refused with the limit.

A construct is rendered with the names that are known at its place, a predicate and no scope. That
the scope at the `k`-th statement knows exactly the names defined before it is
`knows_enterStatement`; nothing else about scopes is needed anywhere.
-/

set_option autoImplicit false

namespace ArithScript

open Lowering

/-! ## The marked text of a module

Fragments are texts and marked stretches. For each construct there is a function from the names that
are known to its fragment; nothing in it can fail. -/

/-- What stands in the script for a name. -/
def spelling (known : String → Bool) (name : String) : String :=
  if known name then name else unresolved

/-- Fragments with a separating text between them. -/
def Fragment.separated (separator : String) (parts : List Fragment) : List Fragment :=
  parts.intersperse (.text separator)

/-- An operand: its own fragment, in parentheses unless it is atomic. The parentheses carry the
region of the operand as well. -/
def operandFragment (e : Expr) (wrap : Bool) (inner : Fragment) : Fragment :=
  if e.isAtomic && !wrap then inner else .marked e.region [.text "(", inner, .text ")"]

mutual

/-- The marked text of an expression. -/
def Expr.fragment (known : String → Bool) : Expr → Fragment
  | .literal value region => .marked region [.text (String.ofList (numeral value))]
  | .binary operator operatorRegion left right region =>
    .marked region [
      operandFragment left (operator = .pow && left.isNegativeLiteral) (left.fragment known),
      .text " ",
      .marked operatorRegion [.text operator.scriptToken],
      .text " ",
      operandFragment right false (right.fragment known)]
  | .call function arguments region =>
    .marked region <|
      .marked function.region [.text (spelling known function.name)] ::
        if arguments.isEmpty then []
        else [.marked (Expr.argumentsRegion arguments) <|
          .text "(" :: Fragment.separated ", " (Expr.fragments known arguments) ++ [.text ")"]]

/-- The marked texts of some expressions. -/
def Expr.fragments (known : String → Bool) : List Expr → List Fragment
  | [] => []
  | e :: es => e.fragment known :: Expr.fragments known es

end

/-- The marked text of a parameter. -/
def Parameter.fragment (p : Parameter) : Fragment := .marked p.region [.text p.name]

/-- The marked text of the name of a definition. -/
def Definition.nameFragment (d : Definition) : Fragment := .marked d.nameRegion [.text d.name]

/-- The names that are known in the body of a definition: its parameters shadow what is outside. -/
def Definition.knows (d : Definition) (known : String → Bool) (name : String) : Bool :=
  d.parameters.any (·.name = name) || known name

/-- The marked text of a definition with parameters. -/
def Definition.functionFragment (known : String → Bool) (d : Definition) : Fragment :=
  .marked d.region <|
    [.text "const ", d.nameFragment, .text " = ("]
      ++ Fragment.separated ", " (d.parameters.map Parameter.fragment)
      ++ [.text ") => ", d.body.fragment (d.knows known), .text ";"]

/-- The marked text of a definition without parameters. The keyword is marked with the region of the
definition. -/
def Definition.constantFragment (known : String → Bool) (d : Definition) : Fragment :=
  .marked d.region [.marked d.region [.text "const"], .text " ", d.nameFragment, .text " = ",
    .text tracker, .text " = ", d.body.fragment known, .text ";"]

/-- The marked text of a statement. -/
def Statement.fragment (known : String → Bool) : Statement → Fragment
  | .definition d =>
    if d.parameters.isEmpty then d.constantFragment known else d.functionFragment known
  | .evaluation e =>
    .marked e.region [.text tracker, .text " = ", e.expression.fragment known, .text ";"]

/-- The name that a statement defines, if it defines one. -/
def Statement.defines : Statement → List String
  | .definition d => [d.name]
  | .evaluation _ => []

/-- The marked texts of statements, each on a line of its own, after statements that define the
names `earlier`. -/
def statementFragments (earlier : List String) : List Statement → List Fragment
  | [] => []
  | s :: ss =>
    .text "\n" :: .text indent :: s.fragment (fun name => name ∈ earlier)
      :: statementFragments (earlier ++ s.defines) ss

/-- The marked text of the function body that a module becomes. -/
def Module.body (m : Module) : Fragment :=
  .marked m.region <|
    [.text "let ", .text tracker, .text ";"] ++ statementFragments [] m.statements
      ++ [.text "\n\n", .text indent, .text "return ", .text tracker, .text ";"]

/-- The marked text of a module. -/
def Module.fragments (m : Module) : List Fragment :=
  [.text "\"use strict\";\n(() => \x7b\n", .text indent, m.body, .text "\n\x7d)"]

/-- The greatest height of an expression in a module. -/
def Module.height (m : Module) : Nat := Expr.maxHeight (m.statements.map Statement.expression)

/-- The greatest of the measures of some items. -/
def greatest {ι : Type} (measure : ι → Nat) : List ι → Nat
  | [] => 0
  | i :: is => max (measure i) (greatest measure is)

section Greatest

variable {ι κ : Type} {measure : ι → Nat}

theorem greatest_le_iff {is : List ι} {n : Nat} :
    greatest measure is ≤ n ↔ ∀ i ∈ is, measure i ≤ n := by
  induction is with
  | nil => simp [greatest]
  | cons i is ih => rw [greatest, Nat.max_le, ih, List.forall_mem_cons]

theorem greatest_map (f : κ → ι) (js : List κ) :
    greatest measure (js.map f) = greatest (fun j => measure (f j)) js := by
  induction js with
  | nil => rfl
  | cons j js ih => rw [List.map_cons, greatest, greatest, ih]

end Greatest

theorem Expr.maxHeight_eq_greatest (es : List Expr) :
    Expr.maxHeight es = greatest Expr.height es := by
  induction es with
  | nil => rfl
  | cons e es ih => rw [Expr.maxHeight, greatest, ih]

theorem Expr.maxHeight_le_iff {es : List Expr} {n : Nat} :
    Expr.maxHeight es ≤ n ↔ ∀ e ∈ es, e.height ≤ n := by
  rw [Expr.maxHeight_eq_greatest, greatest_le_iff]

/-! ## Actions that write fragments

An action succeeds exactly if there is room for its height, and then it has written its fragments
and moved the scope. If there is no room it is refused with the limit, whatever has been written by
then. -/

namespace Lowering

/-- Whether expressions of a height fit in at the place of an emitter. Where there is no expression
to write, nothing can be too deep. -/
def Emitter.Admits (e : Emitter) (height : Nat) : Prop := height = 0 ∨ e.depth + height ≤ e.maxDepth

/-- Parts side by side start at the same depth, so there is room for both if there is room for the
higher. -/
theorem Emitter.admits_max {e : Emitter} {h k : Nat} :
    e.Admits (max h k) ↔ e.Admits h ∧ e.Admits k := by
  unfold Emitter.Admits
  omega

/-- The emitter after fragments have been written and the scope has moved. -/
def Emitter.wrote (e : Emitter) (fragments : List Fragment) (scope : Scope) : Emitter :=
  { e with writer := Fragment.writeAll fragments e.writer, scope := scope }

theorem Emitter.wrote_wrote (e : Emitter) (fs gs : List Fragment) (s t : Scope) :
    (e.wrote fs s).wrote gs t = e.wrote (fs ++ gs) t := by
  simp [Emitter.wrote]

/-- **What an action does, from every emitter**: if the height fits in, it writes the fragments for
the scope at hand, moves the scope and touches nothing else; if not, it fails with the limit. -/
structure Writes (action : Action) (height : Nat) (fragments : Scope → List Fragment)
    (move : Scope → Scope) : Prop where
  done : ∀ e : Emitter, e.Admits height →
    action e = (.ok (), e.wrote (fragments e.scope) (move e.scope))
  refused : ∀ e : Emitter, ¬ e.Admits height → (action e).1 = .error ⟨e.maxDepth⟩

namespace Writes

variable {action : Action} {actions : List Action} {h k : Nat} {F G : Scope → List Fragment}
  {move move' : Scope → Scope}

/-- An action of height zero never fails. -/
theorem of_done (done : ∀ e : Emitter, action e = (.ok (), e.wrote (F e.scope) (move e.scope))) :
    Writes action 0 F move :=
  ⟨fun e _ => done e, fun _ he => absurd (Or.inl rfl) he⟩

theorem append (s : String) : Writes (Action.append s) 0 (fun _ => [.text s]) id :=
  of_done fun _ => rfl

theorem nil : Writes (Action.all []) 0 (fun _ => []) id := of_done fun _ => rfl

/-- Actions are run one after the other, the second in the scope that the first leaves. If the first
is refused, the second is not run. -/
theorem cons (first : Writes action h F move) (rest : Writes (Action.all actions) k G move') :
    Writes (Action.all (action :: actions)) (max h k) (fun s => F s ++ G (move s))
      (fun s => move' (move s)) where
  done e he := by
    obtain ⟨hfirst, hrest⟩ := Emitter.admits_max.mp he
    have step := rest.done (e.wrote (F e.scope) (move e.scope)) hrest
    rw [Emitter.wrote_wrote] at step
    rw [Action.all, first.done e hfirst]
    exact step
  refused e he := by
    rw [Action.all]
    by_cases hfirst : e.Admits h
    · rw [first.done e hfirst]
      exact rest.refused (e.wrote _ _) fun hrest => he (Emitter.admits_max.mpr ⟨hfirst, hrest⟩)
    · have failed := first.refused e hfirst
      rcases hstep : action e with ⟨outcome, e'⟩
      rw [hstep] at failed
      subst failed
      rfl

theorem traced (region : Option Region) (body : Writes action h F move) :
    Writes (Action.traced region action) h (fun s => [.marked region (F s)]) move where
  done e he := by
    cases region with
    | none => exact body.done e he
    | some region =>
      rw [Action.traced, body.done { e with writer := e.writer.openNode region } he]
      rfl
  refused e he := by
    cases region with
    | none => exact body.refused e he
    | some region => exact body.refused { e with writer := e.writer.openNode region } he

/-- One level further in there is room for one less. -/
theorem nested (body : Writes action h F move) : Writes (Action.nested action) (1 + h) F move where
  done e he := by
    have room : e.depth + (1 + h) ≤ e.maxDepth := he.resolve_left (by omega)
    rw [Action.nested, if_neg (by omega),
      body.done { e with depth := e.depth + 1 }
      (Or.inr (show e.depth + 1 + h ≤ e.maxDepth by omega))]
    rfl
  refused e he := by
    rw [Action.nested]
    split
    · rfl
    · next hdepth =>
      refine body.refused { e with depth := e.depth + 1 } fun hbody => he (Or.inr ?_)
      have : h = 0 ∨ e.depth + 1 + h ≤ e.maxDepth := hbody
      omega

theorem enterStatement (index : Nat) :
    Writes (Action.enterStatement index) 0 (fun _ => []) (·.enterStatement index) :=
  of_done fun _ => rfl

theorem withScope (text : Scope → String) :
    Writes (Action.withScope fun scope => Action.append (text scope)) 0
      (fun scope => [.text (text scope)]) id :=
  of_done fun _ => rfl

/-- Inside a definition its parameters are in scope, and behind it they are not. -/
theorem inDefinition (parameters : List Parameter) (body : Writes action h F id) :
    Writes (Action.inDefinition parameters action) h (fun s => F (s.enterDefinition parameters))
      (·.exitDefinition) where
  done e he := by
    rw [Action.inDefinition, body.done { e with scope := e.scope.enterDefinition parameters } he]
    rfl
  refused e he := body.refused { e with scope := e.scope.enterDefinition parameters } he

/-- The same fact under other names for its height, fragments and move. -/
theorem of_eq {h' : Nat} {F' : Scope → List Fragment} (w : Writes action h F move) (hh : h = h')
    (hF : ∀ s, F s = F' s) (hmove : ∀ s, move s = move' s) : Writes action h' F' move' := by
  obtain rfl : F = F' := funext hF
  obtain rfl : move = move' := funext hmove
  exact hh ▸ w

/-- Items that each write one fragment write them with the separator between. -/
theorem separated {ι : Type} (separator : String) {act : ι → Action} {height : ι → Nat}
    {part : ι → Scope → Fragment} :
    ∀ items : List ι, (∀ i ∈ items, Writes (act i) (height i) (fun s => [part i s]) id) →
      Writes (Action.separated separator (items.map act))
        (greatest height items)
        (fun s => Fragment.separated separator (items.map fun i => part i s)) id
  | [], _ => nil
  | [i], each => (cons (each i List.mem_cons_self) nil).of_eq rfl (fun _ => rfl) fun _ => rfl
  | i :: j :: items, each => by
    have rest := separated separator (j :: items) fun k hk => each k (List.mem_cons_of_mem _ hk)
    have both := cons (each i List.mem_cons_self) (cons (append separator) rest)
    exact both.of_eq (by rw [Nat.zero_max]; rfl) (fun _ => rfl) fun _ => rfl

end Writes

/-! ## Expressions

Expressions look names up and leave the scope as it is. -/

/-- Whether a name refers to anything in a scope. -/
def knows (scope : Scope) (name : String) : Bool := (scope.resolve? name).isSome

/-- What a name refers to has that name. -/
theorem name_resolve? {scope : Scope} {name : String} {symbol : Symbol}
    (h : scope.resolve? name = some symbol) : symbol.name = name := by
  unfold Scope.resolve? at h
  split at h
  · next p hp =>
    obtain rfl := Option.some.inj h
    obtain ⟨parameters, -, hfind⟩ := Option.bind_eq_some_iff.mp hp
    simpa [Symbol.name] using List.find?_some hfind
  · obtain ⟨d, hd, rfl⟩ := Option.map_eq_some_iff.mp h
    unfold Scope.definition? at hd
    split at hd
    · next index d' hfind =>
      split at hd
      · obtain rfl := Option.some.inj hd
        simpa [Symbol.name] using List.find?_some hfind
      · cases hd
    · cases hd

/-- The callee of a call is its name if the scope knows it, and `undefined` otherwise. -/
theorem writes_callee (function : Reference) :
    Writes (callee function) 0 (fun s => [.text (spelling (knows s) function.name)]) id := by
  refine (Writes.withScope _).of_eq rfl (fun s => ?_) fun _ => rfl
  unfold spelling knows
  cases hresolve : s.resolve? function.name with
  | none => rfl
  | some symbol => simp [name_resolve? hresolve]

/-- Whether an operand is put into parentheses is decided by looking at the expression, before
anything is written. -/
theorem writes_operand {action : Action} {h : Nat} {part : Scope → Fragment} (e : Expr)
    (wrap : Bool) (body : Writes action h (fun s => [part s]) id) :
    Writes (operand e wrap action) h (fun s => [operandFragment e wrap (part s)]) id := by
  unfold operand operandFragment
  split
  · exact body
  · refine (((Writes.append "(").cons (body.cons ((Writes.append ")").cons .nil))).traced _).of_eq
      ?_ (fun _ => rfl) fun _ => rfl
    simp

theorem expressions_eq_map (es : List Expr) : expressions es = es.map expression := by
  induction es with
  | nil => rfl
  | cons e es ih => simp [expressions, ih]

theorem fragments_eq_map (known : String → Bool) (es : List Expr) :
    Expr.fragments known es = es.map (·.fragment known) := by
  induction es with
  | nil => rfl
  | cons e es ih => simp [Expr.fragments, ih]

/-- **Lowering an expression** writes its fragment and needs its height. -/
theorem writes_expression : ∀ e : Expr,
    Writes (expression e) e.height (fun s => [e.fragment (knows s)]) id
  | .literal value region => by
    have text := Writes.append (String.ofList (numeral value))
    refine ((text.traced region).nested).of_eq ?_ (fun _ => ?_) fun _ => rfl
    · simp [Expr.height]
    · simp [Expr.fragment]
  | .binary operator operatorRegion left right region => by
    have token := (Writes.append operator.scriptToken).traced operatorRegion
    have leftOperand := writes_operand left (operator = .pow && left.isNegativeLiteral)
      (writes_expression left)
    have rightOperand := writes_operand right false (writes_expression right)
    -- the parts in the order they are written; the scope stays as it was from one to the next
    have parts := leftOperand.cons ((Writes.append " ").cons (token.cons ((Writes.append " ").cons
      (rightOperand.cons .nil))))
    refine (show Writes (expression (.binary operator operatorRegion left right region)) _ _ _ by
      rw [expression]; exact (parts.traced region).nested).of_eq ?_ (fun _ => ?_) fun _ => rfl
    · simp [Expr.height]
    · simp [Expr.fragment]
  | .call function arguments region => by
    have name := (writes_callee function).traced function.region
    have each :
        ∀ e ∈ arguments, Writes (expression e) e.height (fun s => [e.fragment (knows s)]) id :=
      fun e _ => writes_expression e
    have list := Writes.separated ", " arguments each
    rw [expression, expressions_eq_map]
    cases harguments : arguments.isEmpty with
    | true =>
      obtain rfl := List.isEmpty_iff.mp harguments
      refine (((name.cons (Writes.nil.cons .nil)).traced region).nested).of_eq ?_ (fun _ => ?_)
        fun _ => rfl
      · simp [Expr.height, Expr.maxHeight]
      · simp [Expr.fragment]
    | false =>
      have bracketed :=
        ((Writes.append "(").cons (list.cons ((Writes.append ")").cons .nil))).traced
        (Expr.argumentsRegion arguments)
      refine (((name.cons (bracketed.cons .nil)).traced region).nested).of_eq ?_ (fun _ => ?_)
        fun _ => rfl
      · simp [Expr.height, Expr.maxHeight_eq_greatest]
      · simp [Expr.fragment, harguments, fragments_eq_map]
termination_by e => sizeOf e

/-! ## Statements and modules

A definition with parameters clears the parameters of the scope behind it. From a module's own scope
on, where none are set, this changes nothing; it is kept in the statements below because an emitter
may start anywhere. -/

/-- The scope behind a statement. -/
def leave : Statement → Scope → Scope
  | .definition d, s => if d.parameters.isEmpty then s else s.exitDefinition
  | .evaluation _, s => s

/-- Inside a definition its parameters are known, and what is known outside. -/
theorem knows_enterDefinition (d : Definition) (s : Scope) :
    knows (s.enterDefinition d.parameters) = d.knows (knows s.exitDefinition) := by
  funext name
  have hdefinition : (s.enterDefinition d.parameters).definition? name
      = s.exitDefinition.definition? name := rfl
  have hany : d.parameters.any (·.name = name)
      = (d.parameters.find? (·.name = name)).isSome := by
    rw [Bool.eq_iff_iff]
    simp [List.find?_isSome]
  unfold knows Definition.knows Scope.resolve?
  rw [hdefinition, hany]
  cases hfind : d.parameters.find? (·.name = name) with
  | none => simp [Scope.parameter?, Scope.enterDefinition, Scope.exitDefinition, hfind]
  | some p => simp [Scope.parameter?, Scope.enterDefinition, hfind]

/-- A definition without parameters is written as a constant. Nothing is entered for it. -/
theorem writes_constantDefinition (d : Definition) :
    Writes (constantDefinition d) d.body.height (fun s => [d.constantFragment (knows s)]) id := by
  have keyword := (Writes.append "const").traced d.region
  have name := (Writes.append d.name).traced d.nameRegion
  refine (show Writes (constantDefinition d) _ _ _ from
    (keyword.cons <| (Writes.append " ").cons <| name.cons <| (Writes.append " = ").cons <|
      (Writes.append tracker).cons <| (Writes.append " = ").cons <|
      (writes_expression d.body).cons <| (Writes.append ";").cons .nil).traced d.region).of_eq
    ?_ (fun _ => rfl) fun _ => rfl
  simp

/-- A definition with parameters is written as a function, with its parameters in scope. -/
theorem writes_functionDefinition (d : Definition) :
    Writes (functionDefinition d) d.body.height
      (fun s => [d.functionFragment (knows s.exitDefinition)]) (·.exitDefinition) := by
  have name := (Writes.append d.name).traced d.nameRegion
  have parameters : Writes (Action.separated ", " (d.parameters.map parameter)) _ _ _ :=
    Writes.separated ", " d.parameters fun p _ => (Writes.append p.name).traced p.region
  have hflat : greatest (fun _ => 0) d.parameters = 0 :=
    Nat.le_zero.mp (greatest_le_iff.mpr fun _ _ => Nat.le_refl 0)
  have body := (writes_expression d.body).inDefinition d.parameters
  refine (show Writes (functionDefinition d) _ _ _ from
    ((Writes.append "const ").cons <| name.cons <| (Writes.append " = (").cons <|
      parameters.cons <| (Writes.append ") => ").cons <| body.cons <|
      (Writes.append ";").cons .nil).traced d.region).of_eq ?_ (fun s => ?_) fun _ => rfl
  · rw [hflat]
    simp
  · rw [Definition.functionFragment, ← knows_enterDefinition]
    rfl

/-- **Lowering a statement** writes its fragment and needs the height of its expression. -/
theorem writes_statement (st : Statement) :
    Writes (statement st) st.expression.height (fun s => [st.fragment (knows (leave st s))])
      (leave st) := by
  cases st with
  | definition d =>
    cases hparameters : d.parameters.isEmpty with
    | true =>
      rw [statement, definition, if_pos hparameters]
      refine (writes_constantDefinition d).of_eq rfl (fun s => ?_) fun s => ?_
      · simp [Statement.fragment, leave, hparameters]
      · simp [leave, hparameters]
    | false =>
      rw [statement, definition, if_neg (by simp [hparameters])]
      refine (writes_functionDefinition d).of_eq rfl (fun s => ?_) fun s => ?_
      · simp [Statement.fragment, leave, hparameters]
      · simp [leave, hparameters]
  | evaluation e =>
    refine (show Writes (evaluation e) _ _ _ from
      ((Writes.append tracker).cons <| (Writes.append " = ").cons <|
        (writes_expression e.expression).cons <|
        (Writes.append ";").cons .nil).traced e.region).of_eq
      ?_ (fun _ => rfl) fun _ => rfl
    simp [Statement.expression]

/-- The marked texts of statements that are numbered from `index` on, as the scope goes along. -/
def statementParts : Nat → List Statement → Scope → List Fragment
  | _, [], _ => []
  | index, st :: ss, s =>
    .text "\n" :: .text indent :: st.fragment (knows (leave st (s.enterStatement index)))
      :: statementParts (index + 1) ss (leave st (s.enterStatement index))

/-- The scope behind statements that are numbered from `index` on. -/
def leaveAll : Nat → List Statement → Scope → Scope
  | _, [], s => s
  | index, st :: ss, s => leaveAll (index + 1) ss (leave st (s.enterStatement index))

/-- Each statement is entered with its number before it is written. -/
theorem writes_statementsFrom : ∀ (index : Nat) (ss : List Statement),
    Writes (Action.all (statementsFrom index ss)) (Expr.maxHeight (ss.map Statement.expression))
      (statementParts index ss) (leaveAll index ss)
  | _, [] => .nil
  | index, st :: ss => by
    have line := (Writes.enterStatement index).cons <| (Writes.append "\n").cons <|
      (Writes.append indent).cons <| (writes_statement st).cons .nil
    refine (line.cons (writes_statementsFrom (index + 1) ss)).of_eq ?_ (fun _ => rfl) fun _ => rfl
    simp [Expr.maxHeight]

/-- **Lowering a module** writes its fragments, with the statements as the scope goes along, and
needs its height. -/
theorem writes_script (m : Module) :
    Writes (script m) m.height
      (fun s => [.text "\"use strict\";\n(() => \x7b\n", .text indent,
        .marked m.region ([.text "let ", .text tracker, .text ";"]
          ++ statementParts 0 m.statements s
          ++ [.text "\n\n", .text indent, .text "return ", .text tracker, .text ";"]),
        .text "\n\x7d)"])
      (leaveAll 0 m.statements) := by
  have body := (Writes.append "let ").cons <| (Writes.append tracker).cons <|
    (Writes.append ";").cons <| (writes_statementsFrom 0 m.statements).cons <|
    (Writes.append "\n\n").cons <| (Writes.append indent).cons <| (Writes.append "return ").cons <|
    (Writes.append tracker).cons <| (Writes.append ";").cons .nil
  refine (show Writes (script m) _ _ _ from
    (Writes.append _).cons <| (Writes.append indent).cons <| (body.traced m.region).cons <|
      (Writes.append _).cons .nil).of_eq ?_ (fun s => ?_) fun _ => rfl
  · simp [Module.height]
  · simp

/-! ## The names that a statement knows

The table of definitions is built from the whole module, later statements included. It answers for a
statement as if it held the earlier ones only, because of a name defined twice the first definition
is found, and the index of that one is compared. -/

/-- The table lists the definitions of statements in order, with their numbers. -/
theorem definitionsFrom_append (index : Nat) (ss ts : List Statement) :
    Scope.definitionsFrom index (ss ++ ts)
      = Scope.definitionsFrom index ss ++ Scope.definitionsFrom (index + ss.length) ts := by
  induction ss generalizing index with
  | nil => rfl
  | cons st ss ih =>
    have hindex : index + 1 + ss.length = index + (st :: ss).length := by
      rw [List.length_cons]
      omega
    cases st <;> simp [Scope.definitionsFrom, ih, hindex]

theorem index_definitionsFrom {index : Nat} {ss : List Statement} {p : Nat × Definition}
    (hp : p ∈ Scope.definitionsFrom index ss) : index ≤ p.1 ∧ p.1 < index + ss.length := by
  induction ss generalizing index with
  | nil => cases hp
  | cons st ss ih =>
    rw [List.length_cons]
    cases st with
    | definition d =>
      rcases List.mem_cons.mp hp with rfl | hp
      · exact ⟨Nat.le_refl _, by show index < _; omega⟩
      · have := ih hp
        omega
    | evaluation e =>
      have := ih hp
      omega

theorem mem_defines_iff (index : Nat) {ss : List Statement} {name : String} :
    name ∈ ss.flatMap Statement.defines
      ↔ ∃ p ∈ Scope.definitionsFrom index ss, p.2.name = name := by
  induction ss generalizing index with
  | nil => simp [Scope.definitionsFrom]
  | cons st ss ih =>
    cases st with
    | definition d =>
      rw [List.flatMap_cons, List.mem_append, ih (index + 1)]
      simp [Statement.defines, Scope.definitionsFrom, eq_comm]
    | evaluation e =>
      rw [List.flatMap_cons, List.mem_append, ih (index + 1)]
      simp [Statement.defines, Scope.definitionsFrom]

/-- **What the scope of a module knows at a statement**: the names that earlier statements
define. -/
theorem knows_enterStatement (before after : List Statement) (s : Scope)
    (hdefinitions : s.definitions = Scope.definitionsFrom 0 (before ++ after))
    (hparameters : s.parameters = none) :
    knows (s.enterStatement before.length)
      = fun name => decide (name ∈ before.flatMap Statement.defines) := by
  funext name
  have hparameter : (s.enterStatement before.length).parameter? name = none := by
    simp [Scope.parameter?, Scope.enterStatement, hparameters]
  rw [knows, Scope.resolve?, hparameter, Bool.eq_iff_iff, decide_eq_true_iff,
    mem_defines_iff 0]
  simp only [Option.isSome_map]
  have hdefs : (s.enterStatement before.length).definitions
      = Scope.definitionsFrom 0 before ++ Scope.definitionsFrom (0 + before.length) after := by
    rw [← definitionsFrom_append]
    exact hdefinitions
  rw [Scope.definition?, hdefs, List.find?_append]
  cases hfind : (Scope.definitionsFrom 0 before).find? (·.2.name = name) with
  | some p =>
    have hmem := List.mem_of_find?_eq_some hfind
    have hindex : p.1 < before.length := by simpa using (index_definitionsFrom hmem).2
    have hname : p.2.name = name := by simpa using List.find?_some hfind
    refine ⟨fun _ => ⟨p, hmem, hname⟩, fun _ => ?_⟩
    simp [Scope.enterStatement, hindex]
  | none =>
    have hnone : ¬ ∃ p ∈ Scope.definitionsFrom 0 before, p.2.name = name := by
      rintro ⟨p, hp, hname⟩
      have := List.find?_eq_none.mp hfind p hp
      simp [hname] at this
    simp only [Option.none_or, hnone, iff_false]
    -- a later definition is found, and its index gives it away
    cases hlater : (Scope.definitionsFrom (0 + before.length) after).find? (·.2.name = name) with
    | none => simp
    | some p =>
      have hindex := (index_definitionsFrom (List.mem_of_find?_eq_some hlater)).1
      have hnot : ¬ p.1 < before.length := by omega
      simp [Scope.enterStatement, hnot]

/-- A statement leaves a scope alone that is in no definition. -/
theorem leave_eq_self {s : Scope} (hparameters : s.parameters = none) (st : Statement) :
    leave st s = s := by
  cases st with
  | evaluation e => rfl
  | definition d =>
    have hexit : s.exitDefinition = s := by
      cases s
      cases hparameters
      rfl
    simp [leave, hexit]

/-- By induction on the statements behind, with those in front growing: at each of them the scope
knows the names that are defined in front. -/
theorem statementParts_eq (before after : List Statement) (s : Scope)
    (hdefinitions : s.definitions = Scope.definitionsFrom 0 (before ++ after))
    (hparameters : s.parameters = none) :
    statementParts before.length after s
      = statementFragments (before.flatMap Statement.defines) after := by
  induction after generalizing before s with
  | nil => rfl
  | cons st after ih =>
    have hleave : leave st (s.enterStatement before.length) = s.enterStatement before.length :=
      leave_eq_self (s := s.enterStatement before.length) hparameters st
    have rest := ih (before ++ [st]) (s.enterStatement before.length)
      (by rw [List.append_assoc]; exact hdefinitions) hparameters
    rw [statementParts, statementFragments, hleave,
      knows_enterStatement before (st :: after) s hdefinitions hparameters]
    simpa using rest

end Lowering

open Lowering in
/-- **Lowering, as a function.** A module whose expressions are not too high is replayed on an empty
writer; any other is refused with the limit. -/
theorem Module.lower_eq (m : Module) (maxDepth : Nat) :
    m.lower maxDepth
      = if m.height ≤ maxDepth then
          .ok (Fragment.writeAll m.fragments Trace.Writer.start).finish
        else .error ⟨maxDepth⟩ := by
  have hscript := writes_script m
  have hparts : statementParts 0 m.statements (Scope.ofModule m)
      = statementFragments [] m.statements :=
    statementParts_eq [] m.statements (Scope.ofModule m) rfl rfl
  split
  · next hheight =>
    have done := hscript.done (Emitter.ofModule m maxDepth)
      (Or.inr (show 0 + m.height ≤ maxDepth by omega))
    rw [Module.lower, done]
    show Except.ok (Fragment.writeAll _ _).finish = _
    rw [show (Emitter.ofModule m maxDepth).scope = Scope.ofModule m from rfl, hparts]
    rfl
  · next hheight =>
    have refused := hscript.refused (Emitter.ofModule m maxDepth) (fun hadmits => by
      have : m.height = 0 ∨ 0 + m.height ≤ maxDepth := hadmits
      omega)
    rcases hrun : script m (Emitter.ofModule m maxDepth) with ⟨outcome, e⟩
    rw [hrun] at refused
    rw [Module.lower, hrun, show outcome = .error ⟨maxDepth⟩ from refused]

end ArithScript
