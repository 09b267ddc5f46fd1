import ArithScript.Proofs.Restoration

/-!
# The nesting limit is exact

Lowering counts the expressions around the place at hand and refuses one that would be too many.
What that comes to for a whole tree is its height: an expression is lowered from a counter `d`
exactly if `d` and its height together are within the limit. Most of this was shown when lowering
was rendered (`Writes`); what is left is to read it as an equivalence, for every action that has a
height.

The counter is a natural number in `Emitter`, and a word of 64 bits in a machine. `expressionIn` is
the lowering of expressions with the step to the next level left open, and `nestedInWord` a step
that does whatever one likes when the counter leaves the word, at either end. That this makes no
difference (`inWord_expression`) says that the counter never leaves it: it is raised only below the
limit, which is a word, and lowered only to where it was raised from.
-/

set_option autoImplicit false

namespace ArithScript

theorem Expr.height_pos (e : Expr) : 0 < e.height := by
  cases e <;> rw [Expr.height] <;> omega

namespace Lowering

/-! ## Heights that fit in

For an action with a height, succeeding and fitting in are the same. What remains to be read off is
how the emitter is left behind. -/

theorem Emitter.admits_iff {e : Emitter} {height : Nat} (hpos : 0 < height) :
    e.Admits height ↔ e.depth + height ≤ e.maxDepth := by
  unfold Emitter.Admits
  omega

namespace Writes

variable {action : Action} {h : Nat} {F : Scope → List Fragment} {move : Scope → Scope}

/-- An action comes to its end exactly where its height fits in. -/
theorem ok_iff (w : Writes action h F move) (e : Emitter) : (action e).1 = .ok () ↔ e.Admits h := by
  constructor
  · intro hok
    by_contra hrefused
    rw [w.refused e hrefused] at hok
    cases hok
  · intro hadmits
    rw [w.done e hadmits]

/-- Actions of the same height end in the same way. -/
theorem outcome_eq {action' : Action} {F' : Scope → List Fragment} {move' : Scope → Scope}
    (w : Writes action h F move) (w' : Writes action' h F' move') (e : Emitter) :
    (action e).1 = (action' e).1 := by
  by_cases hadmits : e.Admits h
  · rw [w.done e hadmits, w'.done e hadmits]
  · rw [w.refused e hadmits, w'.refused e hadmits]

/-- **An action of positive height**: it succeeds if the counter and the height are within the
limit, and is refused with the limit if they are not. -/
theorem exact_of_pos (w : Writes action h F move) (hpos : 0 < h) (e : Emitter) :
    ((action e).1 = .ok () ↔ e.depth + h ≤ e.maxDepth)
      ∧ (e.maxDepth < e.depth + h → (action e).1 = .error ⟨e.maxDepth⟩) := by
  refine ⟨(w.ok_iff e).trans (Emitter.admits_iff hpos), fun hlimit => w.refused e ?_⟩
  rw [Emitter.admits_iff hpos]
  omega

end Writes

/-! ## The counter as a word

Actions are compared with the same actions in which the counter is a word. As long as the counter is
within the limit, and the limit is a word, the two do the same. -/

/-- Does an action one level deeper, with a counter that has to be a word: where counting up or down
would leave the words, `overflow` is done. -/
def Action.nestedInWord (overflow body : Action) : Action := fun e =>
  if e.maxDepth ≤ e.depth then (.error ⟨e.maxDepth⟩, e)
  else if e.depth < Json.Width.offset.max then
    let (outcome, e) := body { e with depth := e.depth + 1 }
    if e.depth = 0 then overflow e else (outcome, { e with depth := e.depth - 1 })
  else overflow e

open ArithScript.Lowering.Action in
mutual

/-- Writes an expression, going to the next level as told. -/
def expressionIn (nest : Action → Action) : Expr → Action
  | .literal value region => nest (traced region (append (String.ofList (numeral value))))
  | .binary operator operatorRegion left right region =>
    let negativeBase := operator = .pow && left.isNegativeLiteral
    nest <| traced region <| all [
      operand left negativeBase (expressionIn nest left),
      append " ",
      traced operatorRegion (append operator.scriptToken),
      append " ",
      operand right false (expressionIn nest right)]
  | .call function arguments region =>
    nest <| traced region <| all [
      traced function.region (callee function),
      if arguments.isEmpty then all []
      else traced (Expr.argumentsRegion arguments) <| all [
        append "(", separated ", " (expressionsIn nest arguments), append ")"]]

/-- The actions that write some expressions. -/
def expressionsIn (nest : Action → Action) : List Expr → List Action
  | [] => []
  | e :: es => expressionIn nest e :: expressionsIn nest es

end

theorem expressionsIn_eq_map (nest : Action → Action) (es : List Expr) :
    expressionsIn nest es = es.map (expressionIn nest) := by
  induction es with
  | nil => rfl
  | cons e es ih => rw [expressionsIn, ih, List.map_cons]

/-- **Going to the next level as lowering does** writes an expression as lowering does. -/
theorem expressionIn_nested (x : Expr) : expressionIn Action.nested x = expression x := by
  cases x with
  | literal value region => rw [expressionIn, expression]
  | binary operator operatorRegion left right region =>
    rw [expressionIn, expression, expressionIn_nested left, expressionIn_nested right]
  | call function arguments region =>
    have each : arguments.map (expressionIn Action.nested) = arguments.map expression :=
      List.map_congr_left fun a _ => expressionIn_nested a
    rw [expressionIn, expression, expressionsIn_eq_map, expressions_eq_map, each]
termination_by sizeOf x

/-- **An action that keeps its counter in a word**: where the limit is a word it does what it does
with natural numbers, and there it restores the counter. -/
structure InWord (action plain : Action) : Prop where
  restores : Restores Eq plain
  same : ∀ e : Emitter, e.maxDepth ≤ Json.Width.offset.max → action e = plain e

namespace InWord

variable {action plain : Action} {actions plains : List Action}

theorem refl (h : Restores Eq plain) : InWord plain plain := ⟨h, fun _ _ => rfl⟩

theorem append (s : String) : InWord (Action.append s) (Action.append s) :=
  refl (composes_eq.append s)

theorem nil : InWord (Action.all []) (Action.all []) := refl composes_eq.nil

theorem cons (first : InWord action plain)
    (rest : InWord (Action.all actions) (Action.all plains)) :
    InWord (Action.all (action :: actions)) (Action.all (plain :: plains)) := by
  refine ⟨composes_eq.cons first.restores rest.restores, fun e he => ?_⟩
  obtain ⟨outcome, fragments, scope, -, hplain⟩ := first.restores e.scope e.maxDepth e.depth
  rw [Action.all, Action.all, first.same e he, hplain e.writer]
  cases outcome with
  | error failure => rfl
  | ok _ => exact rest.same _ he

theorem traced (region : Option Region) (body : InWord action plain) :
    InWord (Action.traced region action) (Action.traced region plain) := by
  refine ⟨body.restores.traced region, fun e he => ?_⟩
  cases region with
  | none => exact body.same e he
  | some region =>
    rw [Action.traced, body.same { e with writer := e.writer.openNode region } he]
    rfl

/-- **A step to the next level.** The counter is below the limit, and the limit is a word; the body
gives the counter back as it got it, so there is one to take off. -/
theorem nested (overflow : Action) (body : InWord action plain) :
    InWord (Action.nestedInWord overflow action) (Action.nested plain) := by
  refine ⟨composes_eq.nested body.restores, fun e he => ?_⟩
  rw [Action.nestedInWord, Action.nested]
  split
  · rfl
  · next hdepth =>
    obtain ⟨outcome, fragments, scope, -, hplain⟩ :=
      body.restores e.scope e.maxDepth (e.depth + 1)
    have hword : e.depth < Json.Width.offset.max := by omega
    rw [if_pos hword, body.same { e with depth := e.depth + 1 } he, hplain e.writer]
    rfl

theorem separated (separator : String) {ι : Type} {write plainly : ι → Action} :
    ∀ items : List ι, (∀ i ∈ items, InWord (write i) (plainly i)) →
      InWord (Action.separated separator (items.map write))
        (Action.separated separator (items.map plainly))
  | [], _ => nil
  | [i], each => (each i List.mem_cons_self).cons nil
  | i :: j :: items, each => by
    have rest := separated separator (j :: items) fun k hk => each k (List.mem_cons_of_mem _ hk)
    exact (each i List.mem_cons_self).cons ((append separator).cons rest)

theorem operand (x : Expr) (wrap : Bool) (body : InWord action plain) :
    InWord (operand x wrap action) (operand x wrap plain) := by
  unfold Lowering.operand
  split
  · exact body
  · exact traced x.region ((append "(").cons (body.cons ((append ")").cons nil)))

end InWord

/-- **Lowering an expression keeps the counter in a word**, whatever would be done if it did not. -/
theorem inWord_expression (overflow : Action) (x : Expr) :
    InWord (expressionIn (Action.nestedInWord overflow) x) (expressionIn Action.nested x) := by
  cases x with
  | literal value region =>
    rw [expressionIn, expressionIn]
    exact ((InWord.append _).traced region).nested overflow
  | binary operator operatorRegion left right region =>
    have token := (InWord.append operator.scriptToken).traced operatorRegion
    have space := InWord.append " "
    have hleft := (inWord_expression overflow left).operand left
      (operator = .pow && left.isNegativeLiteral)
    have hright := (inWord_expression overflow right).operand right false
    rw [expressionIn, expressionIn]
    exact ((hleft.cons (space.cons (token.cons (space.cons (hright.cons .nil))))).traced
      region).nested overflow
  | call function arguments region =>
    have name : InWord (callee function) (callee function) :=
      .refl (.withScope fun _ => composes_eq.append _)
    have list := InWord.separated ", " arguments fun a _ => inWord_expression overflow a
    rw [expressionIn, expressionIn, expressionsIn_eq_map, expressionsIn_eq_map]
    refine (((name.traced function.region).cons (InWord.cons ?_ .nil)).traced region).nested
      overflow
    split
    · exact .nil
    · exact ((InWord.append "(").cons (list.cons ((InWord.append ")").cons .nil))).traced _
termination_by sizeOf x

/-! ## The limit

The limit is exact at every place where an expression may stand, in expressions, statements and
modules. -/

/-- A module is lowered if all its expressions are low enough, and refused with the limit if one is
not. -/
theorem lower_exact (m : Module) (maxDepth : Nat) :
    ((∃ script tree, m.lower maxDepth = .ok (script, tree))
        ↔ ∀ s ∈ m.statements, s.expression.height ≤ maxDepth)
      ∧ ((∃ s ∈ m.statements, maxDepth < s.expression.height) →
          m.lower maxDepth = .error ⟨maxDepth⟩) := by
  have hheight : m.height ≤ maxDepth ↔ ∀ s ∈ m.statements, s.expression.height ≤ maxDepth := by
    rw [Module.height, Expr.maxHeight_le_iff, List.forall_mem_map]
  rw [m.lower_eq maxDepth, ← hheight]
  constructor
  · constructor
    · rintro ⟨script, tree, hlower⟩
      by_contra hhigh
      rw [if_neg hhigh] at hlower
      cases hlower
    · intro hlow
      rw [if_pos hlow]
      exact ⟨_, _, rfl⟩
  · rintro ⟨s, hs, hhigh⟩
    rw [if_neg fun hlow => Nat.not_le.mpr hhigh (hheight.mp hlow s hs)]

/-- **The nesting limit is exact.** From any emitter, in the middle of anything, an expression is
lowered exactly if the counter and its height together are within the limit, and is refused with the
limit if they are not. Parentheses around an operand and the statement around an expression add
nothing. If the limit is a word, the counter is one throughout.

So a module is lowered exactly if every body of a definition and every evaluated expression is no
higher than the limit, and any other is refused with the limit. -/
theorem limit_exact :
    (∀ (x : Expr) (e : Emitter),
        ((expression x e).1 = .ok () ↔ e.depth + x.height ≤ e.maxDepth)
          ∧ (e.maxDepth < e.depth + x.height → (expression x e).1 = .error ⟨e.maxDepth⟩)
          ∧ (∀ wrap, (operand x wrap (expression x) e).1 = (expression x e).1)
          ∧ (∀ s : Statement, s.expression = x → (statement s e).1 = (expression x e).1)
          ∧ (e.maxDepth ≤ Json.Width.offset.max →
              ∀ overflow, expressionIn (Action.nestedInWord overflow) x e = expression x e))
      ∧ ∀ (m : Module) (maxDepth : Nat),
          ((∃ script tree, m.lower maxDepth = .ok (script, tree))
              ↔ ∀ s ∈ m.statements, s.expression.height ≤ maxDepth)
            ∧ ((∃ s ∈ m.statements, maxDepth < s.expression.height) →
                m.lower maxDepth = .error ⟨maxDepth⟩) := by
  refine ⟨fun x e => ?_, lower_exact⟩
  have hx := writes_expression x
  obtain ⟨hok, hrefused⟩ := hx.exact_of_pos x.height_pos e
  refine ⟨hok, hrefused, fun wrap => ?_, ?_, fun hword overflow => ?_⟩
  · exact (writes_operand x wrap hx).outcome_eq hx e
  · rintro s rfl
    exact (writes_statement s).outcome_eq hx e
  · rw [(inWord_expression overflow x).same e hword, expressionIn_nested]

/-- The body of the definition `DEF f(a): a + (a * a);`. -/
def tallExpression : Expr :=
  .binary .add none (.call ⟨"a", none⟩ [] none)
    (.binary .mul none (.call ⟨"a", none⟩ [] none) (.call ⟨"a", none⟩ [] none)
      (some ⟨14, 21, none⟩)) none

/-- An emitter with the greatest word as its limit and so much room below it. -/
def wordEmitter (room : Nat) : Emitter :=
  { Emitter.ofModule tallModule Json.Width.offset.max with depth := Json.Width.offset.max - room }

/-- With room for three an expression of height three is lowered, and the counter stays in the
words; with room for two it is refused. Where the limit lies above the words, the counter does leave
them. -/
theorem limit_exact_tallExpression :
    (expression tallExpression (wordEmitter 3)).1 = .ok ()
      ∧ (∀ overflow, expressionIn (Action.nestedInWord overflow) tallExpression (wordEmitter 3)
          = expression tallExpression (wordEmitter 3))
      ∧ (expression tallExpression (wordEmitter 2)).1 = .error ⟨Json.Width.offset.max⟩
      ∧ (∃ script tree, tallModule.lower 3 = .ok (script, tree))
      ∧ tallModule.lower 2 = .error ⟨2⟩
      ∧ ∀ overflow body, Action.nestedInWord overflow body
            { wordEmitter 0 with maxDepth := Json.Width.offset.max + 1 }
          = overflow { wordEmitter 0 with maxDepth := Json.Width.offset.max + 1 } := by
  obtain ⟨hok, -, -, -, hword⟩ := limit_exact.1 tallExpression (wordEmitter 3)
  obtain ⟨-, hrefused, -⟩ := limit_exact.1 tallExpression (wordEmitter 2)
  refine ⟨hok.mpr (by decide), hword (Nat.le_refl _), hrefused (by decide), ?_, ?_, fun _ _ => rfl⟩
  · exact (limit_exact.2 tallModule 3).1.mpr (by decide)
  · exact (limit_exact.2 tallModule 2).2 (by decide)

end Lowering

end ArithScript
