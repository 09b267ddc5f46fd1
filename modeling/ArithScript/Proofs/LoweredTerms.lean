import ArithScript.Proofs.LoweredTokens
import ArithScript.Proofs.ScriptGrammar

/-!
# Lowered modules parse

The tokens of a lowered module are read as the program that it was meant to be: every expression as
the term of the same shape, whatever the precedence of its operators (`parses_expression`).

The argument follows the levels of the grammar. An operand is atomic or in parentheses, so it is
read at the level of powers, and but for a bare negative literal at the level below; hence at any
level that an operator asks for it at. The induction is on the number of tokens, which is also what
bounds the nesting: an operand, an argument or a body has fewer tokens than what it stands in.
-/

set_option autoImplicit false

namespace ArithScript

open Script

/-! ## The program of a module

What a module means as a program, without tokens and text in between. The program depends on the
names that are known at each place, as the script does: a call of any other name is a call of
`undefined`. -/

/-- The term of a literal. -/
def literalTerm (x : Double) : Term :=
  if x.isNegative then .negate (.number x.abs) else .number x.abs

mutual

/-- The term of an expression. -/
def Expr.term (known : String → Bool) : Expr → Term
  | .literal value _ => literalTerm value
  | .binary operator _ left right _ => .binary operator (left.term known) (right.term known)
  | .call function arguments _ =>
    if arguments.isEmpty then .name (spelling known function.name)
    else .call (.name (spelling known function.name)) (Expr.terms known arguments)

def Expr.terms (known : String → Bool) : List Expr → List Term
  | [] => []
  | e :: es => e.term known :: Expr.terms known es

end

theorem terms_eq_map (known : String → Bool) (es : List Expr) :
    Expr.terms known es = es.map (·.term known) := by
  induction es with
  | nil => rfl
  | cons e es ih => rw [Expr.terms, ih, List.map_cons]

/-- The statement of the script that a statement becomes. -/
def Statement.stmt (known : String → Bool) : Statement → Stmt
  | .definition d =>
    .constant d.name <|
      if d.parameters.isEmpty then .assign Lowering.tracker (d.body.term known)
      else .function (d.parameters.map (·.name)) [.answer (d.body.term (d.knows known))]
  | .evaluation e => .evaluate (.assign Lowering.tracker (e.expression.term known))

/-- The statements of the script that statements become after those that define the names
`earlier`. -/
def stmts (earlier : List String) : List Statement → List Stmt
  | [] => []
  | s :: ss => s.stmt (fun name => name ∈ earlier) :: stmts (earlier ++ s.defines) ss

/-- The program that a module becomes. -/
def Module.program (m : Module) : Term :=
  .function [] <| .declare Lowering.tracker :: stmts [] m.statements
    ++ [.answer (.name Lowering.tracker)]

/-! ## Expressions

Each level of the grammar is parametrised by the parser of what stands in parentheses (`inner`). The
lemmas assume that it reads all expressions of at most `n` tokens, and show that the level reads
those of one more. -/

section Parsing

variable {known : String → Bool} {inner : Parser Term}

/-- What may stand behind an expression. -/
def Ends (rest : List Token) : Prop :=
  ∀ t ∈ rest.head?, t = .closeParen ∨ t = .comma ∨ t = .semicolon

/-- A parser reads an expression in front of anything that may stand behind one. -/
def Parses (known : String → Bool) (parser : Parser Term) (e : Expr) : Prop :=
  ∀ rest, Ends rest → parser (e.tokens known ++ rest) = some (e.term known, rest)

/-- Where an expression is at an end there is no operator that could go on with it. -/
theorem Ends.ne_operator {rest : List Token} (h : Ends rest) (o : Operator) :
    rest.head? ≠ some (.operator o) := by
  intro heq
  rcases h _ heq with h | h | h <;> cases h

theorem Ends.ne_openParen {rest : List Token} (h : Ends rest) : rest.head? ≠ some .openParen := by
  intro heq
  rcases h _ heq with h | h | h <;> cases h

theorem ends_cons {t : Token} (h : t = .closeParen ∨ t = .comma ∨ t = .semicolon)
    (ts : List Token) : Ends (t :: ts) := by
  rintro _ ⟨⟩
  exact h

/-- An expression has tokens, and does not start with a closing parenthesis or a brace. -/
theorem exists_first_token (known : String → Bool) (e : Expr) :
    ∃ t ts, e.tokens known = t :: ts ∧ t ≠ .closeParen ∧ t ≠ .openBrace := by
  cases e with
  | literal value region =>
    rw [Expr.tokens, literalTokens]
    split <;> exact ⟨_, _, rfl, by simp⟩
  | call function arguments region => exact ⟨_, _, rfl, by simp⟩
  | binary operator operatorRegion left right region =>
    obtain ⟨t, ts, htokens, ht⟩ := exists_first_token known left
    rw [Expr.tokens, operandTokens, htokens]
    split
    · exact ⟨t, _, rfl, ht⟩
    · exact ⟨.openParen, _, rfl, by simp⟩

theorem tokens_ne_nil (known : String → Bool) (e : Expr) : e.tokens known ≠ [] := by
  obtain ⟨t, ts, htokens, -⟩ := exists_first_token known e
  rw [htokens]
  exact List.cons_ne_nil t ts

/-- A parser reads every expression of up to a number of tokens. -/
def ParsesUpTo (known : String → Bool) (parser : Parser Term) (n : ℕ) : Prop :=
  ∀ e : Expr, (e.tokens known).length ≤ n → Parses known parser e

theorem enclosed_arguments {arguments : List Expr} (hne : arguments ≠ [])
    (h : ∀ a ∈ arguments, Parses known inner a) (rest : List Token) :
    enclosed inner ([Token.comma].intercalate (arguments.map (·.tokens known))
      ++ .closeParen :: rest) = some (arguments.map (·.term known), rest) := by
  refine enclosed_intercalate hne (fun a _ => ?_) fun a ha t ts ht =>
    h a ha (t :: ts) (ends_cons ?_ ts)
  · obtain ⟨t, ts, htokens, ht, -⟩ := exists_first_token known a
    exact ⟨t, ts, htokens, ht⟩
  · rcases ht with rfl | rfl
    · exact .inr (.inl rfl)
    · exact .inl rfl

theorem length_argument_lt {function : Reference} {arguments : List Expr} {region : Option Region}
    {a : Expr} (ha : a ∈ arguments) : (a.tokens known).length
      < ((Expr.call function arguments region).tokens known).length := by
  have hlength := Json.length_le_length_intercalate_of_mem [.comma]
    (List.mem_map_of_mem (f := fun a : Expr => a.tokens known) ha)
  rw [Expr.tokens, if_neg (by simpa using List.ne_nil_of_mem ha), tokensOfAll_eq_map]
  simp only [List.length_cons, List.length_append, List.length_nil]
  omega

/-- A literal below zero does not stand bare where it has to be wrapped. -/
theorem not_isNegative_of_bare {value : Double} {region : Option Region} {wrap : Bool}
    (hwrap : (Expr.literal value region).isNegativeLiteral = true → wrap = true)
    (hatomic : ((Expr.literal value region).isAtomic && !wrap) = true) :
    value.isNegative = false := by
  refine Bool.eq_false_iff.mpr fun hsign => ?_
  simp [hwrap hsign] at hatomic

/-- **An operand at the level of applications**: it is no bare negative literal, and no parenthesis
opens behind it. -/
theorem application_operand {n : ℕ} (hinner : ParsesUpTo known inner n) {x : Expr} {wrap : Bool}
    (hx : (operandTokens x wrap (x.tokens known)).length ≤ n + 1)
    (hwrap : x.isNegativeLiteral = true → wrap = true) {rest : List Token}
    (hrest : rest.head? ≠ some .openParen) :
    application inner (operandTokens x wrap (x.tokens known) ++ rest)
      = some (x.term known, rest) := by
  unfold operandTokens at hx ⊢
  split
  · next hatomic =>
    rw [if_pos hatomic] at hx
    cases x with
    | literal value region =>
      have hsign : value.isNegative = false := not_isNegative_of_bare hwrap hatomic
      rw [Expr.tokens, Expr.term, literalTokens, literalTerm, hsign]
      exact application_of_primary rfl hrest
    | binary operator operatorRegion left right region => cases hatomic
    | call function arguments region =>
      -- an argument is shorter than the call it is in, so it parses by assumption
      have harguments : ∀ a ∈ arguments, Parses known inner a :=
        fun a ha => hinner a (Nat.le_of_lt_succ (Nat.lt_of_lt_of_le (length_argument_lt ha) hx))
      rw [Expr.tokens, Expr.term]
      cases hempty : arguments.isEmpty with
      | true => exact application_of_primary rfl hrest
      | false =>
        have hread := enclosed_arguments (by simpa using hempty) harguments rest
        simp only [tokensOfAll_eq_map, terms_eq_map, Bool.false_eq_true, if_false, List.cons_append,
          List.append_assoc, List.nil_append]
        rw [application, primary, Option.bind_some]
        dsimp only
        rw [List.length_cons, calls, hread, Option.bind_some]
        exact calls_of_ne hrest _ _
  · next hatomic =>
    rw [if_neg hatomic] at hx
    simp only [List.length_append, List.length_cons, List.length_nil] at hx
    -- in parentheses, where every expression ends
    have hclosed := hinner x (by omega) (.closeParen :: rest) (ends_cons (.inl rfl) rest)
    refine application_of_primary ?_ hrest
    simp only [List.cons_append, List.append_assoc, List.nil_append]
    rw [primary, hclosed]

/-- An operand that begins with a minus is in parentheses. -/
theorem head_operand_ne_sub {x : Expr} {wrap : Bool}
    (hwrap : x.isNegativeLiteral = true → wrap = true) (rest : List Token) :
    (operandTokens x wrap (x.tokens known) ++ rest).head? ≠ some (.operator .sub) := by
  unfold operandTokens
  split
  · next hatomic =>
    cases x with
    | literal value region =>
      have hsign : value.isNegative = false := not_isNegative_of_bare hwrap hatomic
      simp [Expr.tokens, literalTokens, hsign]
    | binary operator operatorRegion left right region => cases hatomic
    | call function arguments region => simp [Expr.tokens]
  · simp

/-- **An operand at the level of powers**, in front of anything but a parenthesis or a power. -/
theorem powers_operand {n : ℕ} (hinner : ParsesUpTo known inner n) {x : Expr} {wrap : Bool}
    (hx : (operandTokens x wrap (x.tokens known)).length ≤ n + 1) {rest : List Token}
    (hparen : rest.head? ≠ some .openParen) (hpow : rest.head? ≠ some (.operator .pow))
    (bound : ℕ) :
    powers (application inner) (bound + 1) (operandTokens x wrap (x.tokens known) ++ rest)
      = some (x.term known, rest) := by
  by_cases hwrap : x.isNegativeLiteral = true → wrap = true
  · exact powers_of_operand bound (application_operand hinner hx hwrap hparen)
      (head_operand_ne_sub hwrap rest) hpow
  · -- a bare negative literal: the minus is read here, and the rest below
    obtain ⟨hnegative, hbare⟩ := Classical.not_imp.mp hwrap
    cases x with
    | binary operator operatorRegion left right region => cases hnegative
    | call function arguments region => cases hnegative
    | literal value region =>
      have hsign : value.isNegative = true := hnegative
      have hnumber : application inner (.number value.abs :: rest)
          = some (.number value.abs, rest) := application_of_primary rfl hparen
      rw [Bool.not_eq_true] at hbare
      rw [hbare, operandTokens, Expr.tokens, Expr.term, literalTokens, literalTerm, hsign]
      exact powers_sub bound hnumber (by simp) hpow

theorem operandTokens_ne_nil (x : Expr) (wrap : Bool) :
    operandTokens x wrap (x.tokens known) ≠ [] := by
  unfold operandTokens
  split
  · exact tokens_ne_nil known x
  · simp

/-- An operand with nothing behind it that could go on with a power is a power by itself. -/
theorem power_operand {n : ℕ} (hinner : ParsesUpTo known inner n) {x : Expr} {wrap : Bool}
    (hx : (operandTokens x wrap (x.tokens known)).length ≤ n + 1) {rest : List Token}
    (hparen : rest.head? ≠ some .openParen) (hpow : rest.head? ≠ some (.operator .pow)) :
    power inner (operandTokens x wrap (x.tokens known) ++ rest) = some (x.term known, rest) := by
  have hlength : (operandTokens x wrap (x.tokens known) ++ rest).length ≠ 0 := by
    simp [operandTokens_ne_nil]
  obtain ⟨bound, hbound⟩ := Nat.exists_eq_succ_of_ne_zero hlength
  rw [power, hbound]
  exact powers_operand hinner hx hparen hpow bound

/-- **A binary expression at the level of sums.** Each operator takes its operands from the level
below its own, and an operand is read at all of them. -/
theorem sum_binary {n : ℕ} (hinner : ParsesUpTo known inner n) {o : Operator} {left right : Expr}
    (hleft : (operandTokens left (o = .pow && left.isNegativeLiteral)
      (left.tokens known)).length ≤ n + 1)
    (hright : (operandTokens right false (right.tokens known)).length ≤ n + 1) {rest : List Token}
    (hrest : Ends rest) :
    sum inner (operandTokens left (o = .pow && left.isNegativeLiteral) (left.tokens known)
        ++ .operator o :: (operandTokens right false (right.tokens known) ++ rest))
      = some (.binary o (left.term known) (right.term known), rest) := by
  have hparen := hrest.ne_openParen
  have hoperator := hrest.ne_operator
  -- the right operand binds tightest whichever the operator is
  have hpower := power_operand hinner hright hparen (hoperator .pow)
  by_cases hpow : o = .pow
  · -- the base of a power is an application, so a literal below zero is wrapped there
    subst hpow
    have hwrap : left.isNegativeLiteral = true
        → (decide (Operator.pow = .pow) && left.isNegativeLiteral) = true := by simp
    have hbase :
        application inner (operandTokens left (Operator.pow = .pow && left.isNegativeLiteral)
          (left.tokens known) ++ .operator .pow
          :: (operandTokens right false (right.tokens known) ++ rest))
        = some (left.term known,
            .operator .pow :: (operandTokens right false (right.tokens known) ++ rest)) :=
      application_operand hinner hleft hwrap (by simp)
    have hraised := power_pow (operandTokens_ne_nil left _) hbase (head_operand_ne_sub hwrap _)
      (powers_operand hinner hright hparen (hoperator .pow))
    exact leftward_of_operand (leftward_of_operand hraised fun o _ => hoperator o)
      fun o _ => hoperator o
  · have hpowerLeft : power inner (operandTokens left (o = .pow && left.isNegativeLiteral)
        (left.tokens known) ++ .operator o
        :: (operandTokens right false (right.tokens known) ++ rest))
          = some (left.term known,
              .operator o :: (operandTokens right false (right.tokens known) ++ rest)) :=
      power_operand hinner hleft (by simp) (by simpa using hpow)
    by_cases ho : o ∈ [Operator.mul, .div, .mod]
    · exact leftward_of_operand (leftward_binary ho hpowerLeft hpower fun o _ => hoperator o)
        fun o _ => hoperator o
    · -- no product ends where a sum goes on, so the left operand is a whole product
      have hsum : o ∈ [Operator.add, .sub] := by cases o <;> simp_all
      refine leftward_binary hsum (leftward_of_operand hpowerLeft ?_)
        (leftward_of_operand hpower fun o _ => hoperator o) fun o _ => hoperator o
      intro p hp heq
      cases heq
      exact ho hp

/-- **Every expression is read as a sum.** A literal and a call are operands, and a binary
expression is read at the level of its operator, inside those above. -/
theorem sum_expression {n : ℕ} (hinner : ParsesUpTo known inner n) {e : Expr}
    (he : (e.tokens known).length ≤ n + 1) : Parses known (sum inner) e := by
  intro rest hrest
  have hatom : operandTokens e false (e.tokens known) = e.tokens known →
      sum inner (e.tokens known ++ rest) = some (e.term known, rest) := by
    intro hbare
    have hpower := power_operand hinner (by rwa [hbare]) hrest.ne_openParen (hrest.ne_operator .pow)
    rw [hbare] at hpower
    exact leftward_of_operand (leftward_of_operand hpower fun o _ => hrest.ne_operator o)
      fun o _ => hrest.ne_operator o
  cases e with
  | literal value region => exact hatom rfl
  | call function arguments region => exact hatom rfl
  | binary operator operatorRegion left right region =>
    rw [Expr.tokens] at he ⊢
    rw [List.length_append, List.length_cons] at he
    rw [Expr.term, List.append_assoc, List.cons_append]
    exact sum_binary hinner (by omega) (by omega) hrest

/-- Tokens that start a binary expression. Neither an assignment nor the parameters of a function
start like this. -/
inductive Leads : List Token → Prop where
  | number (value : Double) (ts : List Token) : Leads (.number value :: ts)
  | minus (ts : List Token) : Leads (.operator .sub :: ts)
  | paren (ts : List Token) : Leads (.openParen :: ts)
  | operand (name : String) (o : Operator) (ts : List Token) :
      Leads (.name name :: .operator o :: ts)
  | call (name : String) (ts : List Token) : Leads (.name name :: .openParen :: ts)

theorem leads_literal (value : Double) (rest : List Token) :
    Leads (literalTokens value ++ rest) := by
  unfold literalTokens
  split
  · exact .minus _
  · exact .number _ _

/-- A binary expression begins with its left operand, which may be in parentheses, and a name there
has the operator behind it. -/
theorem leads_binary (o : Operator) (r : Option Region) (left right : Expr) (region : Option Region)
    (rest : List Token) : Leads ((Expr.binary o r left right region).tokens known ++ rest) := by
  rw [Expr.tokens, operandTokens]
  split
  · cases left with
    | literal value region =>
      rw [Expr.tokens, List.append_assoc]
      exact leads_literal value _
    | binary o r left right region => contradiction
    | call function arguments region =>
      rw [Expr.tokens]
      split
      · exact .operand _ o _
      · exact .call _ _
  · exact .paren _

/-- An assignment begins with a name and its sign, and no expression does: behind a name there is an
operator or a parenthesis. -/
theorem Leads.ne_assign {ts us : List Token} {name : String} (h : Leads ts) :
    ts ≠ .name name :: .assign :: us := by
  rintro rfl
  cases h

/-- Nor does an expression begin like a list of parameters, where behind a name there is a comma or
the closing parenthesis. -/
theorem Leads.items_eq_none {ts : List Token} (h : Leads ts) (bound : ℕ) :
    items parameterName bound ts = none := by
  cases bound with
  | zero => rfl
  | succ bound => cases h <;> rfl

theorem Leads.enclosed_eq_none {ts : List Token} (h : Leads ts) :
    enclosed parameterName ts = none := by
  have hitems := h.items_eq_none ts.length
  cases h <;> exact hitems

/-- So the parser of functions gives up at an expression, and does not take parentheses around an
operand for parameters. -/
theorem parameters?_expression (e : Expr) (rest : List Token) :
    parameters? (e.tokens known ++ rest) = none := by
  cases e with
  | literal value region =>
    rw [Expr.tokens, literalTokens]
    split <;> rfl
  | call function arguments region => rfl
  | binary o r left right region =>
    rw [Expr.tokens, operandTokens]
    split
    · next hatomic =>
      cases left with
      | literal value region =>
        rw [Expr.tokens, literalTokens]
        split <;> rfl
      | binary o r left right region => cases hatomic
      | call function arguments region => rfl
    · next hwrapped =>
      have hleads : ∀ ts, Leads (left.tokens known ++ ts) := by
        intro ts
        cases left with
        | literal value region => exact leads_literal value ts
        | binary o r left right region => exact leads_binary o r left right region ts
        | call function arguments region =>
          simp [Expr.isAtomic, Expr.isNegativeLiteral] at hwrapped
      simp only [List.cons_append, List.append_assoc]
      rw [parameters?, (hleads _).enclosed_eq_none]

/-- The level of assignments looks for a function, then for an assignment, and falls back to
sums. -/
theorem assignment_expression {n : ℕ} (hinner : ParsesUpTo known inner n) {e : Expr}
    (he : (e.tokens known).length ≤ n + 1) : Parses known (assignment inner) e := by
  intro rest hrest
  have hassign : ∀ name us, e.tokens known ++ rest ≠ .name name :: .assign :: us := by
    intro name us heq
    cases e with
    | literal value region => exact (leads_literal value rest).ne_assign heq
    | binary o r left right region => exact (leads_binary o r left right region rest).ne_assign heq
    | call function arguments region =>
      rw [Expr.tokens] at heq
      split at heq
      · cases heq
        rcases hrest .assign rfl with h | h | h <;> cases h
      · cases heq
  rw [assignment_eq_sum hassign (parameters?_expression e rest)]
  exact sum_expression hinner he rest hrest

/-- **Every expression is read as its term**, with as much nesting as it has tokens. -/
theorem parses_expression (known : String → Bool) (bound : ℕ) :
    ParsesUpTo known (expression bound) bound := by
  induction bound with
  | zero =>
    intro e he
    exact absurd (List.eq_nil_of_length_eq_zero (Nat.le_zero.mp he)) (tokens_ne_nil known e)
  | succ bound ih =>
    intro e he
    exact assignment_expression ih he

/-! ## Statements and modules

Statements are read one after the other up to the brace of the block. The last one answers with the
tracker, and the block is the body of the function that the script is. -/

/-- The statement of an evaluation is an assignment to the tracker. -/
theorem expression_assign {bound : ℕ} {e : Expr} (he : (e.tokens known).length ≤ bound)
    (name : String) {rest : List Token} (hrest : Ends rest) :
    expression (bound + 1) (.name name :: .assign :: (e.tokens known ++ rest))
      = some (.assign name (e.term known), rest) := by
  rw [expression, assignment, parses_expression known bound e he rest hrest]
  rfl

theorem parameters?_names {names : List String} (hne : names ≠ []) (rest : List Token) :
    parameters? (.openParen :: ([Token.comma].intercalate (names.map fun name => [.name name])
      ++ .closeParen :: .arrow :: rest)) = some (names, rest) := by
  have hread :
      enclosed parameterName ([Token.comma].intercalate (names.map fun name => [.name name])
        ++ .closeParen :: .arrow :: rest) = some (names.map id, .arrow :: rest) :=
    enclosed_intercalate hne (fun name _ => ⟨.name name, [], rfl, by simp⟩) fun _ _ _ _ _ => rfl
  rw [List.map_id] at hread
  rw [parameters?, hread]

/-- A body that does not begin with a brace is an expression, and the function answers with its
value. -/
theorem functionBody_expression {e : Expr} (h : Parses known inner e) {rest : List Token}
    (hrest : Ends rest) :
    functionBody inner (e.tokens known ++ rest) = some ([.answer (e.term known)], rest) := by
  have hread := h rest hrest
  obtain ⟨t, ts, htokens, -, ht⟩ := exists_first_token known e
  unfold functionBody
  split
  · next heq =>
    rw [htokens] at heq
    cases heq
    exact absurd rfl ht
  · rw [hread]
    rfl

/-- A definition with parameters is a constant that holds a function. -/
theorem expression_function {bound : ℕ} {e : Expr} (he : (e.tokens known).length ≤ bound)
    {names : List String} (hne : names ≠ []) (hnodup : names.Nodup) {rest : List Token}
    (hrest : Ends rest) :
    expression (bound + 1) (.openParen :: ([Token.comma].intercalate
        (names.map fun name => [.name name]) ++ .closeParen :: .arrow :: (e.tokens known ++ rest)))
      = some (.function names [.answer (e.term known)], rest) := by
  have hbody := functionBody_expression (parses_expression known bound e he) hrest
  have hnames : (names ++ declared [.answer (e.term known)]).Nodup := by
    simpa [declared] using hnodup
  rw [expression]
  exact assignment_function (parameters?_names hne _) hbody hnames

/-- **Every statement is read as its statement of the script.** -/
theorem parses_statement {s : Statement} {bound : ℕ} (hs : (s.tokens known).length ≤ bound)
    (hnodup : ∀ d, s = .definition d → (d.parameters.map (·.name)).Nodup) (rest : List Token) :
    statement (expression bound) (s.tokens known ++ rest) = some (s.stmt known, rest) := by
  have hends : Ends (.semicolon :: rest) := ends_cons (.inr (.inr rfl)) rest
  -- a statement has a token at least, so one level of the bound is there for it
  obtain ⟨bound, rfl⟩ : ∃ b, bound = b + 1 := by
    refine Nat.exists_eq_succ_of_ne_zero ?_
    rintro rfl
    cases s <;> simp [Statement.tokens] at hs
  cases s with
  | evaluation e =>
    have hbody : (e.expression.tokens known).length ≤ bound := by
      simp [Statement.tokens] at hs
      omega
    have hread := expression_assign hbody Lowering.tracker hends
    simp only [Statement.tokens, Statement.stmt, List.cons_append, List.append_assoc,
      List.nil_append]
    rw [statement]
    · exact ended_of_eq hread
    all_goals simp
  | definition d =>
    cases hparameters : d.parameters.isEmpty with
    | true =>
      have hbody : (d.body.tokens known).length ≤ bound := by
        simp [Statement.tokens, hparameters] at hs
        omega
      have hread := expression_assign hbody Lowering.tracker hends
      simp only [Statement.tokens, Statement.stmt, hparameters, if_true, List.cons_append,
        List.append_assoc, List.nil_append]
      rw [statement]
      exact ended_of_eq hread
    | false =>
      have hbody : (d.body.tokens (d.knows known)).length ≤ bound := by
        simp [Statement.tokens, hparameters] at hs
        omega
      have hne : d.parameters.map (·.name) ≠ [] := by simpa using hparameters
      have hread := expression_function hbody hne (hnodup d rfl) hends
      rw [List.map_map] at hread
      simp only [Statement.tokens, Statement.stmt, hparameters, Bool.false_eq_true, if_false,
        List.cons_append, List.append_assoc, List.nil_append]
      rw [statement]
      exact ended_of_eq hread

theorem head_statement_ne_closeBrace (s : Statement) (rest : List Token) :
    (s.tokens known ++ rest).head? ≠ some .closeBrace := by
  cases s <;> simp [Statement.tokens]

theorem statement_answer (bound : ℕ) (name : String) (rest : List Token) :
    statement (expression (bound + 1)) (.keyword .answer :: .name name :: .semicolon :: rest)
      = some (.answer (.name name), rest) := by
  have hread : expression (bound + 1) (.name name :: .semicolon :: rest)
      = some (.name name, .semicolon :: rest) := by
    rw [expression, assignment_eq_sum (by simp) rfl]
    exact sum_of_primary rfl (by simp) (by simp) (by simp)
  rw [statement]
  exact ended_of_eq hread

/-- The body of a module, up to its closing brace. -/
theorem block_statements {n : ℕ} (rest : List Token) :
    ∀ {ss : List Statement} {earlier : List String} {bound : ℕ}, ss.length + 2 ≤ bound →
      (statementTokens earlier ss).length ≤ n →
      (∀ d, Statement.definition d ∈ ss → (d.parameters.map (·.name)).Nodup) →
      block (expression (n + 1)) bound (statementTokens earlier ss
          ++ .keyword .answer :: .name Lowering.tracker :: .semicolon :: .closeBrace :: rest)
        = some (stmts earlier ss ++ [.answer (.name Lowering.tracker)], rest)
  | [], _, _ + 2, _, _, _ => block_cons (by simp [statementTokens]) (statement_answer n _ _) rfl
  | s :: ss, earlier, bound + 1, hbound, hn, hnodup => by
    rw [statementTokens, List.length_append] at hn
    rw [List.length_cons] at hbound
    have hlength : ss.length + 2 ≤ bound := by omega
    have hlater : (statementTokens (earlier ++ s.defines) ss).length ≤ n := by omega
    have hs : (s.tokens fun name => name ∈ earlier).length ≤ n + 1 := by omega
    have hrest := block_statements rest hlength hlater
      fun d hd => hnodup d (List.mem_cons_of_mem _ hd)
    have hdefinition : ∀ d, s = .definition d → (d.parameters.map (·.name)).Nodup := by
      rintro d rfl
      exact hnodup d List.mem_cons_self
    rw [statementTokens, List.append_assoc, stmts, List.cons_append]
    exact block_cons (head_statement_ne_closeBrace s _) (parses_statement hs hdefinition _) hrest

/-- There are at least as many tokens as statements, so the bound of a block is great enough. -/
theorem length_le_statementTokens (ss : List Statement) (earlier : List String) :
    ss.length ≤ (statementTokens earlier ss).length := by
  induction ss generalizing earlier with
  | nil => exact Nat.zero_le _
  | cons s ss ih =>
    have hs : 0 < (s.tokens fun name => name ∈ earlier).length := by
      cases s <;> simp [Statement.tokens]
    have := ih (earlier ++ s.defines)
    rw [statementTokens, List.length_append, List.length_cons]
    omega

theorem declared_append (body rest : List Stmt) :
    declared (body ++ rest) = declared body ++ declared rest := List.flatMap_append

/-- The program declares what the module defines, in the same order. -/
theorem declared_stmts (ss : List Statement) (earlier : List String) :
    declared (stmts earlier ss) = ss.flatMap Statement.defines := by
  induction ss generalizing earlier with
  | nil => rfl
  | cons s ss ih =>
    rw [stmts, List.flatMap_cons, ← ih (earlier ++ s.defines)]
    cases s <;> rfl

end Parsing

theorem declared_program (ss : List Statement) :
    declared (.declare Lowering.tracker :: stmts [] ss ++ [.answer (.name Lowering.tracker)])
      = Lowering.tracker :: ss.flatMap Statement.defines := by
  rw [declared_append, ← declared_stmts ss []]
  simp [declared]

/-- **The tokens of a module are read as its program.** -/
theorem Module.program?_tokens {m : Module}
    (hnames : (m.statements.flatMap Statement.defines).Nodup)
    (htracker : Lowering.tracker ∉ m.statements.flatMap Statement.defines)
    (hparameters : ∀ d, Statement.definition d ∈ m.statements → (d.parameters.map (·.name)).Nodup) :
    program? m.tokens = some m.program := by
  generalize hinside : statementTokens [] m.statements ++ [.keyword .answer, .name Lowering.tracker,
    .semicolon, .closeBrace, .closeParen] = inside
  have hlength : inside.length = (statementTokens [] m.statements).length + 5 := by
    rw [← hinside]
    simp
  have hstatements := length_le_statementTokens m.statements []
  have hblock : block (expression (inside.length + 6)) (inside.length + 3)
      (.keyword .declare :: .name Lowering.tracker :: .semicolon :: inside)
        = some (.declare Lowering.tracker :: stmts [] m.statements
            ++ [.answer (.name Lowering.tracker)], [.closeParen]) := by
    refine block_cons (by simp) rfl ?_
    rw [hlength, ← hinside]
    exact block_statements [.closeParen] (by omega) (by omega) hparameters
  have hnodup : (([] : List String) ++ declared (.declare Lowering.tracker :: stmts [] m.statements
      ++ [.answer (.name Lowering.tracker)])).Nodup := by
    rw [List.nil_append, declared_program]
    exact List.nodup_cons.mpr ⟨htracker, hnames⟩
  have hfunction : expression (inside.length + 7) (.openParen :: .closeParen :: .arrow :: .openBrace
      :: .keyword .declare :: .name Lowering.tracker :: .semicolon :: inside)
        = some (m.program, [.closeParen]) := by
    rw [expression]
    exact assignment_function rfl hblock hnodup
  -- the outer parenthesis holds a function, and so is no list of parameters
  have hprogram : expression (inside.length + 8) (.openParen :: .openParen :: .closeParen :: .arrow
      :: .openBrace :: .keyword .declare :: .name Lowering.tracker :: .semicolon :: inside)
        = some (m.program, []) := by
    rw [expression, assignment_eq_sum (by simp)]
    · refine sum_of_primary ?_ (by simp) (by simp) (by simp)
      rw [primary, hfunction]
    · rw [parameters?, (Leads.paren _).enclosed_eq_none]
  rw [show m.tokens = .text "use strict".toList :: .semicolon :: .openParen :: .openParen
    :: .closeParen :: .arrow :: .openBrace :: .keyword .declare :: .name Lowering.tracker
    :: .semicolon :: inside by simp [Module.tokens, ← hinside], program?, if_pos rfl]
  simp only [List.length_cons]
  rw [hprogram]

end ArithScript
