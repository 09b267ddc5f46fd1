import ArithScript.Proofs.LaterStatements
import ArithScript.Proofs.Provenance

/-!
# Call sites

To speak of what is written for one call among many, the call is given by what is around it: an
expression with a hole (`Expr.Context`) in a numbered statement of a module (`Module.CallSite`).
What lowering writes around the hole does not depend on the reference that is put there
(`Module.CallSite.frames_reference`), so the script falls into a head, the callee and a tail, and a
node for the reference stands for exactly the stretch between the two.

`Fragment.Frames` says this of fragments that depend on a reference, and every construct that has
the hole inside adds its own text to the head and the tail. A binary expression looks at its
operands before it writes them, and a call at the regions of its arguments. What they look at is the
same for all references (`Expr.Context.alike_plug`).
-/

set_option autoImplicit false

namespace ArithScript

open Lowering Text

/-! ## Fragments inside fragments

A fragment lies inside another with a head and a tail: that is what is written before it and behind
it. Its outline, moved by the length of the head, is part of the outline of the other. -/

namespace Fragment

/-- Fragments side by side cover neighbouring stretches of text. -/
theorem outlineAll_append (start : Nat) (ps qs : List Fragment) :
    outlineAll start (ps ++ qs)
      = outlineAll start ps ++ outlineAll (start + byteLength (allChars ps)) qs := by
  induction ps generalizing start with
  | nil => rfl
  | cons p ps ih =>
    rw [List.cons_append, outlineAll, outlineAll, ih, List.append_assoc, allChars_cons,
      byteLength_append, Nat.add_assoc]

theorem outlineAll_subset (start : Nat) (source : Option Region) (parts : List Fragment) :
    outlineAll start parts ⊆ (marked source parts).outline start := by
  cases source with
  | none => exact List.Subset.refl _
  | some region => exact List.subset_cons_self _ _

/-- A fragment stands in another one, behind the text `head` and in front of the text `tail`, with
its nodes. -/
structure Inside (inner outer : Fragment) (head tail : List Char) : Prop where
  chars : outer.chars = head ++ inner.chars ++ tail
  outline : ∀ start, inner.outline (start + byteLength head) ⊆ outer.outline start

theorem Inside.refl (f : Fragment) : f.Inside f [] [] :=
  ⟨by simp, fun _ => List.Subset.refl _⟩

/-- What is inside a part is inside the stretch, with the other parts around it. -/
theorem Inside.marked {inner part : Fragment} {head tail : List Char}
    (h : inner.Inside part head tail) (source : Option Region) (before after : List Fragment) :
    inner.Inside (.marked source (before ++ part :: after)) (allChars before ++ head)
      (tail ++ allChars after) where
  chars := by
    show allChars _ = _
    simp [h.chars]
  outline start := by
    have hpart := h.outline (start + byteLength (allChars before))
    rw [Nat.add_assoc, ← byteLength_append] at hpart
    refine List.Subset.trans hpart (List.Subset.trans ?_ (outlineAll_subset start source _))
    rw [outlineAll_append, outlineAll]
    exact List.subset_append_of_subset_right _ (List.subset_append_left _ _)

/-- Whatever the reference, one fragment stands in the other at the same place: between the same
texts. -/
def Frames (outer inner : Reference → Fragment) : Prop :=
  ∃ head tail, ∀ r, (inner r).Inside (outer r) head tail

theorem Frames.refl (f : Reference → Fragment) : Frames f f := ⟨[], [], fun r => .refl (f r)⟩

/-- The parts beside a part are the same for every reference, so they go into the head and the
tail. -/
theorem Frames.marked {outer inner : Reference → Fragment} (h : Frames outer inner)
    (source : Option Region) (before after : List Fragment) :
    Frames (fun r => .marked source (before ++ outer r :: after)) inner := by
  obtain ⟨head, tail, hinside⟩ := h
  exact ⟨_, _, fun r => (hinside r).marked source before after⟩

/-- Separators do not depend on what they separate. -/
theorem exists_separated (separator : String) (earlier later : List Fragment) :
    ∃ before after, ∀ f,
      separated separator (earlier ++ f :: later) = before ++ f :: after := by
  induction earlier with
  | nil =>
    cases later with
    | nil => exact ⟨[], [], fun _ => rfl⟩
    | cons next later =>
      exact ⟨[], .text separator :: separated separator (next :: later), fun _ => rfl⟩
  | cons first earlier ih =>
    obtain ⟨before, after, hsplit⟩ := ih
    refine ⟨first :: .text separator :: before, after, fun f => ?_⟩
    have hcons : separated separator (first :: (earlier ++ f :: later))
        = first :: .text separator :: separated separator (earlier ++ f :: later) := by
      cases earlier <;> rfl
    rw [List.cons_append, hcons, hsplit]
    rfl

end Fragment

open Fragment (Frames)

/-! ## Expressions with a hole

A context is a path from the top of an expression down to a hole, with all that stands beside the
path. One induction over the path shows what is written around the hole. -/

namespace Expr

/-- An expression with a hole in the place of one expression in it. -/
inductive Context where
  | hole
  | left (operator : Operator) (operatorRegion : Option Region) (inner : Context) (right : Expr)
      (region : Option Region)
  | right (operator : Operator) (operatorRegion : Option Region) (left : Expr) (inner : Context)
      (region : Option Region)
  | argument (function : Reference) (earlier : List Expr) (inner : Context) (later : List Expr)
      (region : Option Region)

/-- The expression with the hole filled in. -/
def Context.plug : Context → Expr → Expr
  | .hole, e => e
  | .left operator operatorRegion inner other region, e =>
    .binary operator operatorRegion (inner.plug e) other region
  | .right operator operatorRegion other inner region, e =>
    .binary operator operatorRegion other (inner.plug e) region
  | .argument function earlier inner later region, e =>
    .call function (earlier ++ inner.plug e :: later) region

theorem maxHeight_append (xs ys : List Expr) :
    maxHeight (xs ++ ys) = max (maxHeight xs) (maxHeight ys) := by
  induction xs with
  | nil => exact (Nat.zero_max _).symm
  | cons x xs ih => rw [List.cons_append, maxHeight, maxHeight, ih, Nat.max_assoc]

/-- The height of a whole depends on a part of it through the height of the part only. -/
theorem Context.height_plug_congr (C : Context) {x y : Expr} (h : x.height = y.height) :
    (C.plug x).height = (C.plug y).height := by
  induction C with
  | hole => exact h
  | left operator operatorRegion inner right region ih => rw [plug, plug, height, height, ih]
  | right operator operatorRegion left inner region ih => rw [plug, plug, height, height, ih]
  | argument function earlier inner later region ih =>
    rw [plug, plug, height, height, maxHeight_append, maxHeight_append, maxHeight, maxHeight, ih]

/-- Two expressions that an operator or a call around them cannot tell apart. -/
structure Alike (x y : Expr) : Prop where
  region : x.region = y.region
  isAtomic : x.isAtomic = y.isAtomic
  isNegativeLiteral : x.isNegativeLiteral = y.isNegativeLiteral

/-- What is looked at in an expression is seen from its outermost construct. Only if the hole is not
covered by any is it what was plugged in. -/
theorem Context.alike_plug (C : Context) {x y : Expr} (h : x.Alike y) :
    (C.plug x).Alike (C.plug y) := by
  cases C with
  | hole => exact h
  | left | right | argument => exact ⟨rfl, rfl, rfl⟩

theorem Alike.operandFragment {x y : Expr} (h : x.Alike y) (wrap : Bool) (inner : Fragment) :
    operandFragment x wrap inner = operandFragment y wrap inner := by
  unfold ArithScript.operandFragment
  rw [h.region, h.isAtomic]

/-- The region of arguments is made from the regions of the first and the last. -/
theorem argumentsRegion_congr {xs ys : List Expr} (h : xs.map region = ys.map region) :
    argumentsRegion xs = argumentsRegion ys := by
  have hhead := congrArg List.head? h
  have hlast := congrArg List.getLast? h
  rw [List.head?_map, List.head?_map] at hhead
  rw [List.getLast?_map, List.getLast?_map] at hlast
  have bind_region (o : Option Expr) : o.bind region = (o.map region).bind id := by cases o <;> rfl
  have hregion (es : List Expr) : argumentsRegion es
      = ((es.head?.map region).bind id).bind fun first =>
        ((es.getLast?.map region).bind id).bind fun last => some (first.cover last) := by
    rw [← bind_region, ← bind_region]
    unfold argumentsRegion
    cases es.head? with
    | none => rfl
    | some first => cases es.getLast? <;> rfl
  rw [hregion, hregion, hhead, hlast]

/-- Parentheses around an operand are there for every reference or for none. -/
theorem frames_operand (wrap : Bool) {x : Reference → Expr} {outer inner : Reference → Fragment}
    (halike : ∀ r s, (x r).Alike (x s)) (h : Frames outer inner) :
    Frames (fun r => operandFragment (x r) wrap (outer r)) inner := by
  have hsame : (fun r => operandFragment (x r) wrap (outer r))
      = fun r => operandFragment (x default) wrap (outer r) :=
    funext fun r => (halike r default).operandFragment wrap (outer r)
  rw [hsame]
  unfold operandFragment
  split
  · exact h
  · exact h.marked _ [.text "("] [.text ")"]

/-- The marked text of a reference that is called. -/
def calleeFragment (known : String → Bool) (function : Reference) : Fragment :=
  .marked function.region [.text (spelling known function.name)]

section

variable (known : String → Bool) (arguments : List Expr) (region : Option Region)

theorem Context.alike_plug_call (C : Context) (r s : Reference) :
    (C.plug (.call r arguments region)).Alike (C.plug (.call s arguments region)) :=
  C.alike_plug ⟨rfl, rfl, rfl⟩

/-- **What is written around a call in an expression does not depend on the reference.** -/
theorem Context.frames_plug (C : Context) :
    Frames (fun r => (C.plug (.call r arguments region)).fragment known)
    (calleeFragment known) := by
  induction C with
  | hole => exact (Frames.refl (calleeFragment known)).marked region [] _
  | left operator operatorRegion inner right whole ih =>
    -- A power asks whether its left operand is a negative number, and the answer must not depend on
    -- `r`.
    have hwrap (r : Reference) :
        (inner.plug (.call r arguments region)).isNegativeLiteral
          = (inner.plug (.call default arguments region)).isNegativeLiteral :=
      (inner.alike_plug_call arguments region r default).isNegativeLiteral
    simp only [plug, fragment, hwrap]
    exact (frames_operand _ (inner.alike_plug_call arguments region) ih).marked whole [] _
  | right operator operatorRegion left inner whole ih =>
    simp only [plug, fragment]
    exact (frames_operand _ (inner.alike_plug_call arguments region) ih).marked whole
      [_, .text " ", .marked operatorRegion _, .text " "] []
  | argument function earlier inner later whole ih =>
    obtain ⟨before, after, hseparated⟩ := Fragment.exists_separated ", "
      (earlier.map (·.fragment known)) (later.map (·.fragment known))
    -- The region of the arguments is made of those of the first and the last, and the hole may be
    -- either.
    have hregion (r : Reference) :
        argumentsRegion (earlier ++ inner.plug (.call r arguments region) :: later)
          = argumentsRegion (earlier ++ inner.plug (.call default arguments region) :: later) := by
      refine argumentsRegion_congr ?_
      rw [List.map_append, List.map_append, List.map_cons, List.map_cons,
        (inner.alike_plug_call arguments region r default).region]
    have hempty (e : Expr) : (earlier ++ e :: later).isEmpty = false := by simp
    simp only [plug, fragment, hempty, Bool.false_eq_true, if_false, hregion, fragments_eq_map,
      List.map_append, List.map_cons, hseparated]
    have hlist := ih.marked (argumentsRegion
      (earlier ++ inner.plug (.call default arguments region) :: later)) (.text "(" :: before)
      (after ++ [.text ")"])
    simpa using hlist.marked whole
      [.marked function.region [.text (spelling known function.name)]] []

end

end Expr

/-! ## Statements and modules with a hole

The hole is in one expression of one statement. What a statement knows depends on the definitions
before it, and these have no hole in what they define. -/

namespace Statement

/-- The statement with another expression. -/
def withExpression (e : Expr) : Statement → Statement
  | .definition d => .definition { d with body := e }
  | .evaluation v => .evaluation { v with expression := e }

/-- The names that are known in the expression of a statement: its parameters, if it is a
definition, and what is known outside. -/
def knows (known : String → Bool) : Statement → String → Bool
  | .definition d => d.knows known
  | .evaluation _ => known

@[simp] theorem expression_withExpression (e : Expr) (s : Statement) :
    (s.withExpression e).expression = e := by
  cases s <;> rfl

@[simp] theorem withExpression_expression (s : Statement) : s.withExpression s.expression = s := by
  cases s <;> rfl

@[simp] theorem defines_withExpression (e : Expr) (s : Statement) :
    (s.withExpression e).defines = s.defines := by
  cases s <;> rfl

theorem frames_withExpression (known : String → Bool) (s : Statement) {x : Reference → Expr}
    {inner : Reference → Fragment} (h : Frames (fun r => (x r).fragment (s.knows known)) inner) :
    Frames (fun r => (s.withExpression (x r)).fragment known) inner := by
  cases s with
  | definition d =>
    by_cases hparameters : d.parameters.isEmpty
    · simp only [withExpression, fragment, hparameters, if_true]
      have hknows : (Statement.definition d).knows known = known := by
        funext name
        simp [knows, Definition.knows, List.isEmpty_iff.mp hparameters]
      rw [hknows] at h
      exact h.marked d.region [.marked d.region [.text "const"], .text " ", d.nameFragment,
        .text " = ", .text tracker, .text " = "] [.text ";"]
    · simp only [withExpression, fragment, hparameters, Bool.false_eq_true, if_false]
      have hbody := h.marked d.region ([.text "const ", d.nameFragment, .text " = ("]
        ++ Fragment.separated ", " (d.parameters.map Parameter.fragment) ++ [.text ") => "])
        [.text ";"]
      have hknows (e : Expr) : Definition.knows { d with body := e } known = d.knows known := rfl
      simpa [Definition.functionFragment, Definition.nameFragment, knows, hknows] using hbody
  | evaluation v => exact h.marked v.region [.text tracker, .text " = "] [.text ";"]

end Statement

namespace Module

/-- What a statement knows that has some statements in front of it. -/
def knownAfter (before : List Statement) (name : String) : Bool :=
  decide (name ∈ before.flatMap Statement.defines)

/-- So does the module around it. The statements in front of the hole define the same names for
every reference, so those behind it are written the same as well. -/
theorem frames_statement (region : Option Region) (before after : List Statement) (s : Statement)
    {x : Reference → Expr} {inner : Reference → Fragment}
    (h : Frames (fun r => (x r).fragment (s.knows (knownAfter before))) inner) :
    Frames (fun r => .marked none
      (fragments ⟨region, before ++ s.withExpression (x r) :: after⟩)) inner := by
  have hstatement := Statement.frames_withExpression (knownAfter before) s h
  have hbody := hstatement.marked region
    (bodyStart before ++ [.text "\n", .text indent])
    (statementFragments (before.flatMap Statement.defines ++ s.defines) after ++ bodyTail)
  have hmodule := hbody.marked none [.text "\"use strict\";\n(() => \x7b\n", .text indent]
      [.text "\n\x7d)"]
  have hknown : (fun name => decide (name ∈ before.flatMap Statement.defines))
      = knownAfter before := rfl
  simp only [fragments, body, statementFragments_append, statementFragments,
    Statement.defines_withExpression, List.nil_append, hknown]
  simpa [bodyStart, bodyTail] using hmodule

/-- The place of a call in a module: the number of a statement, what is around the call in the
expression of that statement, and the call itself but for its reference. -/
structure CallSite where
  statement : Nat
  context : Expr.Context
  arguments : List Expr
  region : Option Region

namespace CallSite

/-- The expression of the statement, given the reference that is called at the site. -/
def expression (site : CallSite) (function : Reference) : Expr :=
  site.context.plug (.call function site.arguments site.region)

/-- A module calls a reference at a site. -/
def Calls (site : CallSite) (m : Module) (function : Reference) : Prop :=
  ∃ s, m.statements[site.statement]? = some s ∧ s.expression = site.expression function

/-- The module that calls another reference at the site, and is the same everywhere else. -/
def put (site : CallSite) (m : Module) (function : Reference) : Module :=
  { m with
    statements :=
      m.statements.modify site.statement (·.withExpression (site.expression function)) }

variable {site : CallSite} {m : Module} {function : Reference}

/-- To put a reference at a site is to change one statement of the module. -/
theorem put_eq {before after : List Statement} {s : Statement}
    (hstatements : m.statements = before ++ s :: after) (hlength : before.length = site.statement)
    (other : Reference) :
    site.put m other = ⟨m.region, before ++ s.withExpression (site.expression other) :: after⟩ := by
  rw [put, hstatements, ← hlength]
  exact congrArg (Module.mk m.region) (List.modifyTailIdx_add _ 0 _ _)

/-- The statement of a site, and those around it. -/
theorem Calls.split (h : site.Calls m function) :
    ∃ before s after, m.statements = before ++ s :: after ∧ before.length = site.statement
      ∧ s.expression = site.expression function := by
  obtain ⟨s, hs, hexpression⟩ := h
  obtain ⟨hlt, hget⟩ := List.getElem?_eq_some_iff.mp hs
  refine ⟨m.statements.take site.statement, s, m.statements.drop (site.statement + 1), ?_, ?_,
    hexpression⟩
  · rw [← hget, List.getElem_cons_drop, List.take_append_drop]
  · rw [List.length_take]
    omega

/-- Calling what is called already changes nothing. -/
theorem Calls.put_self (h : site.Calls m function) : site.put m function = m := by
  obtain ⟨before, s, after, hstatements, hlength, hexpression⟩ := h.split
  rw [put_eq hstatements hlength, ← hexpression, Statement.withExpression_expression, ← hstatements]

/-- References have no height, so whether a module is refused does not depend on them. -/
theorem Calls.height_put (h : site.Calls m function) (other : Reference) :
    (site.put m other).height = m.height := by
  obtain ⟨before, s, after, hstatements, hlength, hexpression⟩ := h.split
  have hsame : (site.expression other).height = s.expression.height := by
    rw [hexpression]
    exact site.context.height_plug_congr rfl
  simp only [put_eq hstatements hlength, height, hstatements, List.map_append, List.map_cons,
    Expr.maxHeight_append, Expr.maxHeight, Statement.expression_withExpression, hsame]

/-- **What is written around a call in a module does not depend on the reference.** -/
theorem frames_reference {before after : List Statement} {s : Statement}
    (hstatements : m.statements = before ++ s :: after) (hlength : before.length = site.statement) :
    Frames (fun r => .marked none (site.put m r).fragments)
      (Expr.calleeFragment (s.knows (knownAfter before))) := by
  simp only [put_eq hstatements hlength]
  exact frames_statement m.region before after s
    (site.context.frames_plug _ site.arguments site.region)

end CallSite

end Module

end ArithScript
