import ArithScript.Proofs.CallSites
import Mathlib.Data.List.Induction

/-!
# What names refer to

One table of definitions serves a whole module, and the place at which a name is looked up is kept
beside it: the statement at hand, and the parameters of the definition at hand.
`Scope.resolve?_after_eq_iff` says what the table answers after any movements, for modules that
define a name as often as they like.

In the script this comes to a rule that needs no table (`Module.Sees`): a statement sees the
parameters of its own definition and the names that earlier statements define.
`Module.calls_resolve` says that the callee of every call is written by this rule.
-/

set_option autoImplicit false

namespace ArithScript

open Lowering Text

/-! ## Looking up a name

Movements are what lowering does with a scope: it enters statements, and enters and leaves
definitions. After any of them, in any order, what counts is the last statement that was entered and
the parameters that are set. -/

namespace Scope

/-- A movement of a scope. -/
inductive Move where
  | enterStatement (index : Nat)
  | enterDefinition (parameters : List Parameter)
  | exitDefinition

/-- The scope after a movement. -/
def move (scope : Scope) : Move → Scope
  | .enterStatement index => scope.enterStatement index
  | .enterDefinition parameters => scope.enterDefinition parameters
  | .exitDefinition => scope.exitDefinition

/-- The scope after some movements. -/
def after (scope : Scope) (moves : List Move) : Scope := moves.foldl move scope

/-- The statement at hand after some movements: the last that was entered, or else the first of
all. -/
def statementAfter (moves : List Move) : Nat :=
  (moves.reverse.findSome? fun
    | .enterStatement index => some index
    | _ => none).getD 0

/-- The parameters at hand after some movements: those of the last definition that was entered,
unless it was left. -/
def parametersAfter (moves : List Move) : List Parameter :=
  (moves.reverse.findSome? fun
    | .enterDefinition parameters => some parameters
    | .exitDefinition => some []
    | .enterStatement _ => none).getD []

/-- Among some statements `d` is the first definition of a name, and `before` stands in front of
it. -/
structure FirstDefinition (statements : List Statement) (name : String) (before : List Statement)
    (d : Definition) : Prop where
  split : ∃ after, statements = before ++ .definition d :: after
  named : d.name = name
  first : ∀ e, Statement.definition e ∈ before → e.name ≠ name

/-- **What a name refers to**, given the statements of a module, the parameters at hand and the
number of the statement at hand: the first parameter of that name; if there is none, the first
definition of that name in the module, provided that its number is below the one at hand; otherwise
nothing. -/
inductive Refers (statements : List Statement) (parameters : List Parameter) (current : Nat)
    (name : String) : Option Symbol → Prop where
  | parameter {earlier later : List Parameter} {p : Parameter}
      (split : parameters = earlier ++ p :: later) (named : p.name = name)
      (first : ∀ q ∈ earlier, q.name ≠ name) :
      Refers statements parameters current name (some (.parameter p))
  | definition {before : List Statement} {d : Definition}
      (noParameter : ∀ p ∈ parameters, p.name ≠ name)
      (found : FirstDefinition statements name before d) (inScope : before.length < current) :
      Refers statements parameters current name (some (.definition d))
  | nothing (noParameter : ∀ p ∈ parameters, p.name ≠ name)
      (outOfScope : ∀ before d, FirstDefinition statements name before d →
        current ≤ before.length) :
      Refers statements parameters current name none

theorem after_ofModule (m : Module) (moves : List Move) :
    ((ofModule m).after moves).definitions = definitionsFrom 0 m.statements
      ∧ ((ofModule m).after moves).parameters.getD [] = parametersAfter moves
      ∧ ((ofModule m).after moves).current = statementAfter moves := by
  induction moves using List.reverseRecOn with
  | nil => exact ⟨rfl, rfl, rfl⟩
  | append_singleton moves last ih =>
    obtain ⟨hdefinitions, hparameters, hcurrent⟩ := ih
    rw [after, List.foldl_append, List.foldl_cons, List.foldl_nil]
    unfold parametersAfter statementAfter
    rw [List.reverse_append, List.reverse_singleton, List.singleton_append]
    cases last with
    | enterStatement index => exact ⟨hdefinitions, hparameters, rfl⟩
    | enterDefinition parameters => exact ⟨hdefinitions, rfl, hcurrent⟩
    | exitDefinition => exact ⟨hdefinitions, rfl, hcurrent⟩

theorem mem_of_mem_definitionsFrom {index : Nat} {statements : List Statement}
    {entry : Nat × Definition} (h : entry ∈ definitionsFrom index statements) :
    Statement.definition entry.2 ∈ statements := by
  induction statements generalizing index with
  | nil => cases h
  | cons s statements ih =>
    cases s with
    | definition d =>
      rcases List.mem_cons.mp h with rfl | h
      · exact List.mem_cons_self
      · exact List.mem_cons_of_mem _ (ih h)
    | evaluation e => exact List.mem_cons_of_mem _ (ih h)

theorem FirstDefinition.cons {statements before : List Statement} {name : String} {d : Definition}
    (h : FirstDefinition statements name before d) {s : Statement}
    (hs : ∀ e, s = .definition e → e.name ≠ name) :
    FirstDefinition (s :: statements) name (s :: before) d where
  split := by
    obtain ⟨after, rfl⟩ := h.split
    exact ⟨after, rfl⟩
  named := h.named
  first e he := by
    rcases List.mem_cons.mp he with rfl | he
    · exact hs e rfl
    · exact h.first e he

/-- The table finds the first definition of a name, with its number. -/
theorem find?_definitionsFrom {index number : Nat} {statements : List Statement} {name : String}
    {d : Definition} :
    (definitionsFrom index statements).find? (·.2.name = name) = some (number, d)
      ↔ ∃ before, FirstDefinition statements name before d ∧ number = index + before.length := by
  constructor
  · -- The number is counted from `index` on, which grows with each statement that is passed.
    intro h
    induction statements generalizing index with
    | nil => cases h
    | cons s statements ih =>
      cases s with
      | definition e =>
        rw [definitionsFrom] at h
        by_cases hname : e.name = name
        · rw [List.find?_cons_of_pos (by simpa using hname)] at h
          cases h
          exact ⟨[], ⟨⟨statements, rfl⟩, hname, fun _ he => absurd he List.not_mem_nil⟩, rfl⟩
        · rw [List.find?_cons_of_neg (by simpa using hname)] at h
          obtain ⟨before, hfirst, rfl⟩ := ih h
          refine ⟨_, hfirst.cons ?_, by rw [List.length_cons]; omega⟩
          rintro _ ⟨⟩
          exact hname
      | evaluation e =>
        obtain ⟨before, hfirst, rfl⟩ := ih h
        refine ⟨_, hfirst.cons ?_, by rw [List.length_cons]; omega⟩
        rintro _ ⟨⟩
  · rintro ⟨before, ⟨⟨after, rfl⟩, hname, hfirst⟩, rfl⟩
    have hnone : (definitionsFrom index before).find? (·.2.name = name) = none := by
      refine List.find?_eq_none.mpr fun entry hentry => ?_
      simpa using hfirst entry.2 (mem_of_mem_definitionsFrom hentry)
    rw [definitionsFrom_append, List.find?_append, hnone, Option.none_or, definitionsFrom,
      List.find?_cons_of_pos (by simpa using hname)]

section

variable {scope : Scope} {name : String}

theorem parameter?_eq_find? :
    scope.parameter? name = (scope.parameters.getD []).find? (·.name = name) := by
  unfold parameter?
  cases scope.parameters <;> rfl

theorem parameter?_eq_some_iff {p : Parameter} :
    scope.parameter? name = some p
      ↔ ∃ earlier later, scope.parameters.getD [] = earlier ++ p :: later ∧ p.name = name
        ∧ ∀ q ∈ earlier, q.name ≠ name := by
  rw [parameter?_eq_find?, List.find?_eq_some_iff_append]
  constructor
  · rintro ⟨hname, earlier, later, hsplit, hfirst⟩
    exact ⟨earlier, later, hsplit, by simpa using hname, fun q hq => by simpa using hfirst q hq⟩
  · rintro ⟨earlier, later, hsplit, hname, hfirst⟩
    exact ⟨by simpa using hname, earlier, later, hsplit, fun q hq => by simpa using hfirst q hq⟩

theorem parameter?_eq_none_iff :
    scope.parameter? name = none ↔ ∀ p ∈ scope.parameters.getD [], p.name ≠ name := by
  rw [parameter?_eq_find?, List.find?_eq_none]
  simp only [decide_eq_true_eq]

variable {statements : List Statement}
    (hdefinitions : scope.definitions = definitionsFrom 0 statements)
include hdefinitions

theorem definition?_eq_some_iff {d : Definition} :
    scope.definition? name = some d
      ↔ ∃ before, FirstDefinition statements name before d ∧ before.length < scope.current := by
  unfold definition?
  rw [hdefinitions]
  constructor
  · intro h
    split at h
    · next number e hfind =>
      obtain ⟨before, hfirst, rfl⟩ := find?_definitionsFrom.mp hfind
      split at h
      · next hcurrent =>
        obtain rfl := Option.some.inj h
        exact ⟨before, hfirst, by omega⟩
      · cases h
    · cases h
  · rintro ⟨before, hfirst, hcurrent⟩
    rw [find?_definitionsFrom.mpr ⟨before, hfirst, rfl⟩]
    exact if_pos (by omega)

theorem definition?_eq_none_iff :
    scope.definition? name = none
      ↔ ∀ before d, FirstDefinition statements name before d → scope.current ≤ before.length := by
  constructor
  · intro h before d hfirst
    refine Nat.le_of_not_lt fun hcurrent => ?_
    rw [(definition?_eq_some_iff hdefinitions).mpr ⟨before, hfirst, hcurrent⟩] at h
    cases h
  · intro h
    refine Option.eq_none_iff_forall_ne_some.mpr fun d hd => ?_
    obtain ⟨before, hfirst, hcurrent⟩ := (definition?_eq_some_iff hdefinitions).mp hd
    exact absurd (h before d hfirst) (Nat.not_le.mpr hcurrent)

theorem resolve?_eq_iff {symbol : Option Symbol} :
    scope.resolve? name = symbol
      ↔ Refers statements (scope.parameters.getD []) scope.current name symbol := by
  unfold resolve?
  constructor
  · rintro rfl
    split
    · next p hp =>
      obtain ⟨earlier, later, hsplit, hname, hfirst⟩ := parameter?_eq_some_iff.mp hp
      exact .parameter hsplit hname hfirst
    · next hnone =>
      have hparameters := parameter?_eq_none_iff.mp hnone
      cases hd : scope.definition? name with
      | none => exact .nothing hparameters ((definition?_eq_none_iff hdefinitions).mp hd)
      | some d =>
        obtain ⟨before, hfirst, hcurrent⟩ := (definition?_eq_some_iff hdefinitions).mp hd
        exact .definition hparameters hfirst hcurrent
  · rintro (⟨hsplit, hname, hfirst⟩ | ⟨hparameters, hfound, hcurrent⟩ | ⟨hparameters, hlater⟩)
    · rw [parameter?_eq_some_iff.mpr ⟨_, _, hsplit, hname, hfirst⟩]
    · rw [parameter?_eq_none_iff.mpr hparameters,
        (definition?_eq_some_iff hdefinitions).mpr ⟨_, hfound, hcurrent⟩]
      rfl
    · rw [parameter?_eq_none_iff.mpr hparameters, (definition?_eq_none_iff hdefinitions).mpr hlater]
      rfl

end

/-- **What the table answers after any movements.** -/
theorem resolve?_after_eq_iff (m : Module) (moves : List Move) (name : String)
    (symbol : Option Symbol) :
    ((ofModule m).after moves).resolve? name = symbol
      ↔ Refers m.statements (parametersAfter moves) (statementAfter moves) name symbol := by
  obtain ⟨hdefinitions, hparameters, hcurrent⟩ := after_ofModule m moves
  rw [resolve?_eq_iff hdefinitions, hparameters, hcurrent]

end Scope

/-! ## Callees in a script

For a call at a given site the script falls into a head, the callee and a tail. The head and the
tail are the same for all references, so it can be said what the callee is. -/

namespace Module

/-- **The names that a numbered statement sees**: the parameters of the definition that it is, and
the names of the definitions before it. -/
inductive Sees (m : Module) (number : Nat) (name : String) : Prop where
  | parameter {d : Definition} {p : Parameter}
      (found : m.statements[number]? = some (.definition d)) (mem : p ∈ d.parameters)
      (named : p.name = name)
  | definition {earlier : Nat} {d : Definition} (before : earlier < number)
      (found : m.statements[earlier]? = some (.definition d)) (named : d.name = name)

/-- What is to be written for a name that is called in a numbered statement: the name if the
statement sees it, and `undefined` otherwise. -/
structure Callee (m : Module) (number : Nat) (name callee : String) : Prop where
  seen : m.Sees number name → callee = name
  unseen : ¬ m.Sees number name → callee = "undefined"

/-- In a lowered module a reference has been written as `callee` between the texts `head` and
`tail`. If it has a region, there is a node for it, and the node stands for this stretch. -/
structure CalledBetween (script : String) (tree : Trace.Tree) (function : Reference)
    (callee head tail : String) : Prop where
  script : script = head ++ callee ++ tail
  traced : ∀ region, function.region = some region → ∃ node ∈ tree.nodes,
    node.source = some region ∧ node.target.offset = head.utf8ByteSize
      ∧ node.target.stop = head.utf8ByteSize + callee.utf8ByteSize

theorem knownAfter_iff {before : List Statement} {name : String} :
    knownAfter before name = true ↔ ∃ d, .definition d ∈ before ∧ d.name = name := by
  rw [knownAfter, decide_eq_true_iff, List.mem_flatMap]
  constructor
  · rintro ⟨s, hs, hname⟩
    cases s with
    | definition d => exact ⟨d, hs, (List.mem_singleton.mp hname).symm⟩
    | evaluation e => cases hname
  · rintro ⟨d, hd, hname⟩
    exact ⟨_, hd, List.mem_singleton.mpr hname.symm⟩

/-- The rule for names in a script, and what rendering goes by. -/
theorem sees_iff {m : Module} {before after : List Statement} {s : Statement}
    (hstatements : m.statements = before ++ s :: after) (name : String) :
    m.Sees before.length name ↔ s.knows (knownAfter before) name = true := by
  have hhere : m.statements[before.length]? = some s := by simp [hstatements]
  have hbefore {j : Nat} (hj : j < before.length) : m.statements[j]? = before[j]? := by
    rw [hstatements, List.getElem?_append_left hj]
  -- what the statements before have defined is seen by either kind of statement
  have hearlier : knownAfter before name = true → m.Sees before.length name := by
    intro h
    obtain ⟨d, hd, hname⟩ := knownAfter_iff.mp h
    obtain ⟨j, hj, hget⟩ := List.getElem_of_mem hd
    refine .definition hj ?_ hname
    rw [hbefore hj, List.getElem?_eq_getElem hj, hget]
  constructor
  · rintro (⟨hfound, hmem, hname⟩ | ⟨hj, hfound, hname⟩)
    · obtain rfl := Option.some.inj (hhere.symm.trans hfound)
      refine Bool.or_eq_true_iff.mpr (Or.inl (List.any_eq_true.mpr ⟨_, hmem, ?_⟩))
      exact decide_eq_true hname
    · rw [hbefore hj] at hfound
      have hknown := knownAfter_iff.mpr ⟨_, List.mem_of_getElem? hfound, hname⟩
      cases s with
      | definition d => rw [Statement.knows, Definition.knows, hknown, Bool.or_true]
      | evaluation e => exact hknown
  · intro h
    cases s with
    | definition d =>
      rcases Bool.or_eq_true_iff.mp h with hparameter | hknown
      · obtain ⟨p, hp, hname⟩ := List.any_eq_true.mp hparameter
        exact .parameter hhere hp (of_decide_eq_true hname)
      · exact hearlier hknown
    | evaluation e => exact hearlier h

theorem callee_spelling {m : Module} {before after : List Statement} {s : Statement}
    (hstatements : m.statements = before ++ s :: after) (name : String) :
    m.Callee before.length name (spelling (s.knows (knownAfter before)) name) where
  seen h := if_pos ((sees_iff hstatements name).mp h)
  unseen h := if_neg fun hknows => h ((sees_iff hstatements name).mpr hknows)

/-- A callee inside the fragments of a module, in the script and in the trace. -/
theorem calledBetween_of_inside {m : Module} {known : String → Bool} {function : Reference}
    {head tail : List Char}
    (h : (Expr.calleeFragment known function).Inside (.marked none m.fragments) head tail) :
    CalledBetween m.writer.text m.writer.finish.2 function (spelling known function.name)
      (.ofList head) (.ofList tail) where
  script := by
    refine String.ext ((toList_writer m).trans (h.chars.trans ?_))
    simp [Expr.calleeFragment, Fragment.chars]
  traced region hregion := by
    have hnodes := Trace.Writer.outlines_finish m.fragments
    have hinside := h.outline 0
    rw [Expr.calleeFragment, hregion] at hinside
    have hmem := hinside List.mem_cons_self
    obtain ⟨node, hnode, houtline⟩ := List.mem_map.mp (hnodes ▸ List.mem_cons_of_mem _ hmem)
    obtain ⟨hsource, hoffset, hstop⟩ := Outline.mk.inj houtline
    refine ⟨node, Array.mem_toList_iff.mp hnode, hsource, ?_, ?_⟩
    · rw [hoffset, Nat.zero_add, ← byteLength_toList, String.toList_ofList]
    · rw [hstop, Nat.zero_add, ← byteLength_toList, ← byteLength_toList, String.toList_ofList]
      simp [Fragment.chars]

/-- **Names are resolved exactly.** Let a module be lowered, and let it call a reference anywhere in
an expression of any of its statements. Then there are two texts between which the callee stands in
the script, and whichever reference is called at this place instead, the script is the same up to
the callee. The callee is the name itself if it is that of a parameter of the definition at hand or
of a definition before the statement, and `undefined` in every other case. As for the table: after
any movements it answers with the first parameter at hand of the name, else with the first
definition of the name in the module provided that its number is below that of the statement at
hand, else with nothing. -/
theorem calls_resolve :
    (∀ (m : Module) (maxDepth : Nat) (script : String) (tree : Trace.Tree),
      m.lower maxDepth = .ok (script, tree) →
      ∀ (site : CallSite) (function : Reference), site.Calls m function →
        ∃ head tail,
          (∃ callee, m.Callee site.statement function.name callee
            ∧ CalledBetween script tree function callee head tail)
          ∧ ∀ other : Reference, ∃ script' tree' callee,
            (site.put m other).lower maxDepth = .ok (script', tree')
              ∧ m.Callee site.statement other.name callee
              ∧ CalledBetween script' tree' other callee head tail)
    ∧ ∀ (m : Module) (moves : List Scope.Move) (name : String) (symbol : Option Symbol),
      ((Scope.ofModule m).after moves).resolve? name = symbol
        ↔ Scope.Refers m.statements (Scope.parametersAfter moves) (Scope.statementAfter moves) name
          symbol := by
  refine ⟨?_, Scope.resolve?_after_eq_iff⟩
  intro m maxDepth script tree hlower site function hcalls
  obtain ⟨before, s, after, hstatements, hlength, -⟩ := hcalls.split
  -- One head and one tail for all references: that is why the callee can be told from the rest of
  -- the script.
  have hframes : Fragment.Frames (fun r => .marked none (site.put m r).fragments) _ :=
    CallSite.frames_reference hstatements hlength
  obtain ⟨head, tail, hinside⟩ := hframes
  have hcallee (name : String) :
      m.Callee site.statement name (spelling (s.knows (knownAfter before)) name) :=
    hlength ▸ callee_spelling hstatements name
  refine ⟨.ofList head, .ofList tail, ⟨_, hcallee function.name, ?_⟩, fun other => ?_⟩
  · have hself := calledBetween_of_inside (hinside function)
    rw [hcalls.put_self] at hself
    have hfinish := finish_writer_of_lower hlower
    obtain rfl : m.writer.text = script := congrArg Prod.fst hfinish
    obtain rfl : m.writer.finish.2 = tree := congrArg Prod.snd hfinish
    exact hself
  · -- Another reference has the same height, so the module with it is lowered as well.
    have hheight : (site.put m other).height ≤ maxDepth := by
      rw [hcalls.height_put]
      rw [lower_eq] at hlower
      split at hlower
      · assumption
      · cases hlower
    refine ⟨_, _, _, ?_, hcallee other.name, calledBetween_of_inside (hinside other)⟩
    rw [lower_eq, if_pos hheight]
    rfl

/-- The module `DEF f(a): a; DEF f: 1 + f(a); DEF g: f;`, in which a name is defined twice. -/
def redefining : Module :=
  ⟨none, [.definition ⟨"f", none, [⟨"a", none⟩], .call ⟨"a", none⟩ [] none, none⟩,
    .definition ⟨"f", none, [],
      .binary .add none (.literal ⟨0x3FF0000000000000⟩ none)
        (.call ⟨"f", some ⟨26, 27, none⟩⟩ [.call ⟨"a", none⟩ [] none] none) none, none⟩,
    .definition ⟨"g", none, [], .call ⟨"f", none⟩ [] none, none⟩]⟩

/-- The place of the call with an argument in it. -/
def redefiningSite : CallSite where
  statement := 1
  context := .right .add none (.literal ⟨0x3FF0000000000000⟩ none) .hole none
  arguments := [.call ⟨"a", none⟩ [] none]
  region := none

/-- There `f` is the earlier definition of two. Neither the parameter of that definition nor the
later definition `g` is seen. -/
theorem calls_resolve_redefining :
    ∃ head tail,
      (∃ script tree, redefining.lower 3 = .ok (script, tree)
        ∧ CalledBetween script tree ⟨"f", some ⟨26, 27, none⟩⟩ "f" head tail)
      ∧ ∀ name ∈ ["a", "g"], ∃ script tree,
        (redefiningSite.put redefining ⟨name, none⟩).lower 3 = .ok (script, tree)
          ∧ script = head ++ "undefined" ++ tail := by
  have hlower := lower_eq redefining 3
  rw [if_pos (by decide)] at hlower
  obtain ⟨head, tail, ⟨callee, hcallee, hbetween⟩, hother⟩ :=
    calls_resolve.1 redefining 3 _ _ hlower
    redefiningSite ⟨"f", some ⟨26, 27, none⟩⟩ ⟨_, rfl, rfl⟩
  have hsees (name : String) := @sees_iff redefining (redefining.statements.take 1) _ _ rfl name
  obtain rfl := hcallee.seen ((hsees "f").mpr (by decide))
  refine ⟨head, tail, ⟨_, _, hlower, hbetween⟩, ?_⟩
  intro name hname
  obtain ⟨script, tree, callee, hput, hcallee, hbetween⟩ := hother ⟨name, none⟩
  have hunseen : ¬ redefining.Sees 1 name := by
    refine fun h => absurd ((hsees name).mp h) ?_
    have hcases : name = "a" ∨ name = "g" := by simpa using hname
    rcases hcases with rfl | rfl <;> decide
  obtain rfl := hcallee.unseen hunseen
  exact ⟨script, tree, hput, hbetween.script⟩

end Module

end ArithScript
