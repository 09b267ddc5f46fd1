import ArithScript.Proofs.LoweredTokens

/-!
# What modules mean

The value of a module, read off its tree: a definition with parameters stands for a function of
doubles, a definition without for a double, and the module has the value of the last statement that
is evaluated. What the operators do is left open (`arith`), and so is what a literal stands for
(`reading`).

A front end hands over modules that are `Module.Valid`. These have a value whatever the operators do
(`Module.exists_evaluate`): names are used only after they are defined, so there is no recursion.
-/

set_option autoImplicit false

namespace ArithScript

open Script

/-- What a name stands for. -/
inductive Meaning where
  | value (x : Double)
  | function (f : List Double → Option Double)

abbrev Environment := String → Option Meaning

def Environment.set (env : Environment) (name : String) (meaning : Meaning) : Environment :=
  fun other => if other = name then some meaning else env other

/-- The environment in which names stand for values. -/
def Environment.bind (env : Environment) : List String → List Double → Environment
  | name :: names, x :: xs => (env.bind names xs).set name (.value x)
  | _, _ => env

section Evaluation

variable (arith : Operator → Double → Double → Double) (reading : Double → Double)

mutual

/-- The value of an expression. -/
def Expr.evaluate (env : Environment) : Expr → Option Double
  | .literal value _ => some (reading value)
  | .binary o _ left right _ => do
    let x ← left.evaluate env
    let y ← right.evaluate env
    return arith o x y
  | .call function arguments _ =>
    match env function.name with
    | some (.value x) => if arguments.isEmpty then some x else none
    | some (.function f) =>
      if arguments.isEmpty then none else (Expr.evaluateAll env arguments).bind f
    | none => none

def Expr.evaluateAll (env : Environment) : List Expr → Option (List Double)
  | [] => some []
  | e :: es => do
    let x ← e.evaluate env
    let xs ← Expr.evaluateAll env es
    return x :: xs

end

/-- The function that a definition with parameters stands for. -/
def Definition.function (env : Environment) (d : Definition) (xs : List Double) : Option Double :=
  if xs.length = d.parameters.length then
    d.body.evaluate arith reading (env.bind (d.parameters.map (·.name)) xs)
  else none

/-- The value of the last of some statements that is evaluated, `last` if there is none. -/
def evaluateStatements : Environment → Option Double → List Statement → Option (Option Double)
  | _, last, [] => some last
  | env, _, .evaluation e :: ss => do
    let x ← e.expression.evaluate arith reading env
    evaluateStatements env (some x) ss
  | env, last, .definition d :: ss =>
    if d.parameters.isEmpty then do
      let x ← d.body.evaluate arith reading env
      evaluateStatements (env.set d.name (.value x)) (some x) ss
    else
      evaluateStatements (env.set d.name (.function (d.function arith reading env))) last ss

/-- The value of a module. -/
def Module.evaluate (m : Module) : Option (Option Double) :=
  evaluateStatements arith reading (fun _ => none) none m.statements

end Evaluation

/-! ## Valid modules

A name has to be defined or be a parameter before it is called, with as many arguments as it has
parameters, and no name may be defined twice. Whether this is so can be read off a module without
evaluating it. -/

/-- How many arguments a name takes, if it may be used. -/
abbrev Arities := String → Option Nat

mutual

/-- Whether every reference in an expression is to a name that may be used, with as many arguments
as it takes. -/
def Expr.resolves (arities : Arities) : Expr → Bool
  | .literal _ _ => true
  | .binary _ _ left right _ => left.resolves arities && right.resolves arities
  | .call function arguments _ =>
    arities function.name = some arguments.length && Expr.allResolve arities arguments

def Expr.allResolve (arities : Arities) : List Expr → Bool
  | [] => true
  | e :: es => e.resolves arities && Expr.allResolve arities es

end

/-- The names that may be used inside a statement: the parameters of a definition as well. -/
def Statement.inside (arities : Arities) : Statement → Arities
  | .definition d => fun name =>
    if name ∈ d.parameters.map (·.name) then some 0 else arities name
  | .evaluation _ => arities

/-- The names that may be used behind a statement. -/
def Statement.behind (arities : Arities) : Statement → Arities
  | .definition d => fun name => if name = d.name then some d.parameters.length else arities name
  | .evaluation _ => arities

/-- Whether every reference in some statements is to a name that may be used. -/
def statementsResolve (arities : Arities) : List Statement → Bool
  | [] => true
  | s :: ss =>
    s.expression.resolves (s.inside arities) && statementsResolve (s.behind arities) ss

/-- What a front end promises of a module. -/
structure Module.Valid (L : Lexicon) (m : Module) : Prop where
  definitions_distinct : (m.statements.flatMap Statement.defines).Nodup
  parameters_distinct :
    ∀ d, Statement.definition d ∈ m.statements → (d.parameters.map (·.name)).Nodup
  names_free : ∀ s ∈ m.statements, ∀ name ∈ s.names,
    L.isIdentifier name = true ∧ name ≠ Lowering.unresolved ∧ name ≠ Lowering.tracker
  references_resolve : statementsResolve (fun _ => none) m.statements = true
  literals_finite : ∀ s ∈ m.statements, s.expression.isFinite = true

section Existence

variable {arith : Operator → Double → Double → Double} {reading : Double → Double}

/-- A name that takes a number of arguments stands for something that takes them. -/
def Meaning.Takes : Meaning → Nat → Prop
  | .value _, n => n = 0
  | .function f, n => 0 < n ∧ ∀ xs, xs.length = n → (f xs).isSome = true

/-- Every name that may be used stands for something that takes as many arguments as it should. -/
def Environment.Serves (env : Environment) (arities : Arities) : Prop :=
  ∀ name n, arities name = some n → ∃ meaning, env name = some meaning ∧ meaning.Takes n

mutual

theorem exists_evaluate {env : Environment} {arities : Arities} (henv : env.Serves arities) :
    ∀ e : Expr, e.resolves arities = true → ∃ x, e.evaluate arith reading env = some x
  | .literal value _, _ => ⟨reading value, rfl⟩
  | .binary o _ left right _, h => by
    rw [Expr.resolves, Bool.and_eq_true] at h
    obtain ⟨x, hx⟩ := exists_evaluate henv left h.1
    obtain ⟨y, hy⟩ := exists_evaluate henv right h.2
    exact ⟨arith o x y, by rw [Expr.evaluate, hx, hy]; rfl⟩
  | .call function arguments _, h => by
    rw [Expr.resolves, Bool.and_eq_true, decide_eq_true_eq] at h
    obtain ⟨meaning, hmeaning, htakes⟩ := henv _ _ h.1
    obtain ⟨xs, hxs, hlength⟩ := exists_evaluateAll henv arguments h.2
    cases meaning with
    | value x =>
      have hempty : arguments = [] := List.eq_nil_of_length_eq_zero htakes
      exact ⟨x, by rw [Expr.evaluate, hmeaning, hempty]; rfl⟩
    | function f =>
      obtain ⟨hpositive, htotal⟩ := htakes
      obtain ⟨x, hx⟩ := Option.isSome_iff_exists.mp (htotal xs hlength)
      have hne : arguments.isEmpty = false := by
        simpa using List.ne_nil_of_length_pos hpositive
      exact ⟨x, by rw [Expr.evaluate, hmeaning]; simp [hne, hxs, hx]⟩

theorem exists_evaluateAll {env : Environment} {arities : Arities} (henv : env.Serves arities) :
    ∀ es : List Expr, Expr.allResolve arities es = true →
      ∃ xs, Expr.evaluateAll arith reading env es = some xs ∧ xs.length = es.length
  | [], _ => ⟨[], rfl, rfl⟩
  | e :: es, h => by
    rw [Expr.allResolve, Bool.and_eq_true] at h
    obtain ⟨x, hx⟩ := exists_evaluate henv e h.1
    obtain ⟨xs, hxs, hlength⟩ := exists_evaluateAll henv es h.2
    exact ⟨x :: xs, by rw [Expr.evaluateAll, hx, hxs]; rfl, by simp [hlength]⟩

end

theorem Environment.Serves.set {env : Environment} {arities : Arities} (henv : env.Serves arities)
    (name : String) {meaning : Meaning} {n : ℕ} (hmeaning : meaning.Takes n) :
    (env.set name meaning).Serves fun other => if other = name then some n else arities other := by
  intro other k hk
  unfold Environment.set
  dsimp only at hk
  split at hk
  · next heq =>
    cases hk
    exact ⟨meaning, if_pos heq, hmeaning⟩
  · next hne =>
    rw [if_neg hne]
    exact henv other k hk

theorem Environment.Serves.bind {env : Environment} {arities : Arities}
    (henv : env.Serves arities) :
    ∀ {names : List String} {xs : List Double}, xs.length = names.length →
      (env.bind names xs).Serves fun name => if name ∈ names then some 0 else arities name
  | [], [], _ => by simpa [Environment.bind] using henv
  | name :: names, x :: xs, hlength => by
    have hrest : xs.length = names.length := by simpa using hlength
    have hvalue : (Meaning.value x).Takes 0 := rfl
    intro other n hn
    refine (henv.bind hrest).set name hvalue other n ?_
    by_cases heq : other = name
    · simpa [heq] using hn
    · simpa [heq] using hn

theorem Definition.function_takes {env : Environment} {arities : Arities}
    (henv : env.Serves arities) {d : Definition} (hparameters : d.parameters.isEmpty = false)
    (hbody : d.body.resolves ((Statement.definition d).inside arities) = true) :
    (Meaning.function (d.function arith reading env)).Takes d.parameters.length := by
  refine ⟨List.length_pos_of_ne_nil (by simpa using hparameters), fun xs hxs => ?_⟩
  have hinside : (env.bind (d.parameters.map (·.name)) xs).Serves
      ((Statement.definition d).inside arities) := henv.bind (by simpa using hxs)
  obtain ⟨x, hx⟩ : ∃ x, d.body.evaluate arith reading _ = some x :=
    exists_evaluate hinside d.body hbody
  rw [Definition.function, if_pos hxs, hx]
  rfl

theorem exists_evaluateStatements {ss : List Statement} {env : Environment} {arities : Arities}
    (henv : env.Serves arities) (last : Option Double) (h : statementsResolve arities ss = true) :
    ∃ result, evaluateStatements arith reading env last ss = some result := by
  -- each statement hands on an environment that serves one name more
  induction ss generalizing env arities last with
  | nil => exact ⟨last, rfl⟩
  | cons s ss ih =>
    rw [statementsResolve, Bool.and_eq_true] at h
    cases s with
    | evaluation e =>
      obtain ⟨x, hx⟩ := exists_evaluate henv e.expression h.1
      rw [evaluateStatements, hx]
      exact ih henv (some x) h.2
    | definition d =>
      rw [evaluateStatements]
      cases hparameters : d.parameters.isEmpty with
      | true =>
        have hnil : d.parameters = [] := List.isEmpty_iff.mp hparameters
        have hbody : d.body.resolves arities = true := by
          simpa [Statement.inside, Statement.expression, hnil] using h.1
        obtain ⟨x, hx⟩ : ∃ x, d.body.evaluate arith reading env = some x :=
          exists_evaluate henv d.body hbody
        rw [if_pos rfl, hx]
        exact ih (henv.set d.name (by rw [hnil]; rfl)) (some x) h.2
      | false =>
        rw [if_neg (by simp)]
        exact ih (henv.set d.name (d.function_takes henv hparameters h.1)) last h.2

/-- **A valid module has a value.** -/
theorem Module.exists_evaluate {L : Lexicon} {m : Module} (h : m.Valid L) :
    ∃ result, m.evaluate arith reading = some result :=
  exists_evaluateStatements (fun _ _ hn => by cases hn) none h.references_resolve

end Existence

end ArithScript
