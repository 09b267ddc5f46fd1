import ArithScript.Proofs.Provenance
import ArithScript.Proofs.ScriptTokens

/-!
# Tokens of lowered modules

The text of a lowered module is cut into exactly the tokens that its fragments were written for
(`Module.tokens_text`). This is where blanks earn their keep: each word, numeral and operator has
something behind it that ends it.
-/

set_option autoImplicit false

namespace ArithScript

open Script

/-! ## The tokens of a module

The tokens that a construct is meant to have, given with the names that are known, along the lines
of its fragment. -/

/-- The tokens of an operand. -/
def operandTokens (e : Expr) (wrap : Bool) (inner : List Token) : List Token :=
  if e.isAtomic && !wrap then inner else .openParen :: inner ++ [.closeParen]

mutual

/-- The tokens of an expression. -/
def Expr.tokens (known : String → Bool) : Expr → List Token
  | .literal value _ => literalTokens value
  | .binary operator _ left right _ =>
    operandTokens left (operator = .pow && left.isNegativeLiteral) (left.tokens known)
      ++ .operator operator :: operandTokens right false (right.tokens known)
  | .call function arguments _ =>
    .name (spelling known function.name) ::
      if arguments.isEmpty then []
      else .openParen :: [Token.comma].intercalate (Expr.tokensOfAll known arguments)
        ++ [.closeParen]

def Expr.tokensOfAll (known : String → Bool) : List Expr → List (List Token)
  | [] => []
  | e :: es => e.tokens known :: Expr.tokensOfAll known es

end

theorem tokensOfAll_eq_map (known : String → Bool) (es : List Expr) :
    Expr.tokensOfAll known es = es.map (·.tokens known) := by
  induction es with
  | nil => rfl
  | cons e es ih => rw [Expr.tokensOfAll, ih, List.map_cons]

/-- The tokens of a statement. -/
def Statement.tokens (known : String → Bool) : Statement → List Token
  | .definition d =>
    [.keyword .const, .name d.name, .assign] ++
      if d.parameters.isEmpty then
        [.name Lowering.tracker, .assign] ++ d.body.tokens known ++ [.semicolon]
      else
        .openParen :: [Token.comma].intercalate (d.parameters.map fun p => [.name p.name])
          ++ [.closeParen, .arrow] ++ d.body.tokens (d.knows known) ++ [.semicolon]
  | .evaluation e =>
    [.name Lowering.tracker, .assign] ++ e.expression.tokens known ++ [.semicolon]

/-- The tokens of statements after those that define the names `earlier`. -/
def statementTokens (earlier : List String) : List Statement → List Token
  | [] => []
  | s :: ss =>
    s.tokens (fun name => name ∈ earlier) ++ statementTokens (earlier ++ s.defines) ss

/-- The tokens of a module. -/
def Module.tokens (m : Module) : List Token :=
  [.text "use strict".toList, .semicolon, .openParen, .openParen, .closeParen, .arrow, .openBrace,
    .keyword .declare, .name Lowering.tracker, .semicolon]
    ++ statementTokens [] m.statements
    ++ [.keyword .answer, .name Lowering.tracker, .semicolon, .closeBrace, .closeParen]

/-! ## Expressions

Names have to be identifiers and literals finite: a name may hold anything otherwise, and what is
not finite has no numeral. -/

mutual

/-- The names that an expression refers to, resolved or not. -/
def Expr.names : Expr → List String
  | .literal _ _ => []
  | .binary _ _ left right _ => left.names ++ right.names
  | .call function arguments _ => function.name :: Expr.allNames arguments

def Expr.allNames : List Expr → List String
  | [] => []
  | e :: es => e.names ++ Expr.allNames es

end

theorem mem_allNames_of_mem {es : List Expr} {e : Expr} {name : String} (he : e ∈ es)
    (hname : name ∈ e.names) : name ∈ Expr.allNames es := by
  induction es with
  | nil => cases he
  | cons first es ih =>
    rw [Expr.allNames, List.mem_append]
    rcases List.mem_cons.mp he with rfl | he
    · exact .inl hname
    · exact .inr (ih he)

mutual

/-- Whether every literal of an expression is finite. -/
def Expr.isFinite : Expr → Bool
  | .literal value _ => value.isFinite
  | .binary _ _ left right _ => left.isFinite && right.isFinite
  | .call _ arguments _ => Expr.areFinite arguments

def Expr.areFinite : List Expr → Bool
  | [] => true
  | e :: es => e.isFinite && Expr.areFinite es

end

theorem areFinite_iff {es : List Expr} :
    Expr.areFinite es = true ↔ ∀ e ∈ es, e.isFinite = true := by
  induction es with
  | nil => simp [Expr.areFinite]
  | cons e es ih => simp [Expr.areFinite, ih]

section Reading

variable {L : Lexicon} {known : String → Bool}

theorem stops_blank (rest : List Char) : Stops (' ' :: rest) := by
  rintro c ⟨⟩
  exact .inl rfl

/-- Items with commas between them. -/
theorem reads_separated {ι : Type} {part : ι → Fragment} {tokensOf : ι → List Token} :
    ∀ items : List ι, (∀ i ∈ items, Reads L (part i).chars (tokensOf i)) →
      Reads L (Fragment.allChars (Fragment.separated ", " (items.map part)))
        ([Token.comma].intercalate (items.map tokensOf))
  | [], _ => Closes.nil.reads
  | [i], each => by
    have := each i List.mem_cons_self
    simpa [Fragment.separated] using this
  | i :: j :: items, each => by
    have rest := reads_separated (j :: items) fun k hk => each k (List.mem_cons_of_mem _ hk)
    have comma : Closes L ", ".toList [.comma] :=
      (closes_mark rfl).append (closes_blank rfl)
    have both := (each i List.mem_cons_self).append (comma.append_reads rest)
      (by rintro c ⟨⟩; exact .inr rfl) (by simp)
    simpa [Fragment.separated, Fragment.chars, List.intercalate] using both

/-- The callee is an identifier: the name if it is known, and known names are identifiers, and
`undefined` otherwise. -/
theorem reads_spelling {name : String} (hname : known name = true → L.isIdentifier name = true) :
    Reads L (spelling known name).toList [.name (spelling known name)] := by
  unfold spelling
  split
  · next h => exact reads_identifier (hname h)
  · exact reads_identifier isIdentifier_unresolved

/-- Parentheses close whatever stands in them. -/
theorem closes_parenthesized {cs : List Char} {ts : List Token} (h : Reads L cs ts) :
    Closes L ('(' :: cs ++ [')']) (.openParen :: ts ++ [.closeParen]) := by
  have close := h.append_closes (closes_mark (c := ')') rfl) (by rintro c ⟨⟩; exact .inr rfl)
    (by simp)
  exact (closes_mark (c := '(') rfl).append close

/-- An operand in parentheses closes, any other reads as the expression does. -/
theorem reads_operand (e : Expr) (wrap : Bool) {inner : Fragment} {ts : List Token}
    (h : Reads L inner.chars ts) :
    Reads L (operandFragment e wrap inner).chars (operandTokens e wrap ts) := by
  unfold operandFragment operandTokens
  split
  · exact h
  · simpa [Fragment.chars] using (closes_parenthesized h).reads

/-- **The tokens of an expression**, of which the names that are known have to be identifiers. -/
theorem reads_expression : ∀ e : Expr,
    (∀ name ∈ e.names, known name = true → L.isIdentifier name = true) → e.isFinite = true →
      Reads L (e.fragment known).chars (e.tokens known)
  | .literal value _, _, hfinite => by
    have hread := reads_numeral (L := L) (show value.isFinite = true from hfinite)
    simpa [Expr.fragment, Expr.tokens, Fragment.chars] using hread
  | .binary operator _ left right _, hnames, hfinite => by
    rw [Expr.names, List.forall_mem_append] at hnames
    rw [Expr.isFinite, Bool.and_eq_true] at hfinite
    have hleft := reads_operand left (operator = .pow && left.isNegativeLiteral)
      (reads_expression left hnames.1 hfinite.1)
    have hright := reads_operand right false (reads_expression right hnames.2 hfinite.2)
    have hblank : Closes L [' '] [] := closes_blank rfl
    -- the blanks on both sides end the operand and the operator
    have htail := (reads_operator (L := L) operator).append (hblank.append_reads hright)
      (stops_blank _) (by simp)
    have hall := hleft.append (hblank.append_reads htail) (stops_blank _) (by simp)
    simpa [Expr.fragment, Expr.tokens, Fragment.chars] using hall
  | .call function arguments _, hnames, hfinite => by
    rw [Expr.names, List.forall_mem_cons] at hnames
    have hname := reads_spelling hnames.1
    cases harguments : arguments.isEmpty with
    | true => simpa [Expr.fragment, Expr.tokens, Fragment.chars, harguments] using hname
    | false =>
      rw [Expr.isFinite, areFinite_iff] at hfinite
      have hlist := reads_separated arguments fun e he => reads_expression e
        (fun name hname => hnames.2 name (mem_allNames_of_mem he hname)) (hfinite e he)
      have hall := hname.append (closes_parenthesized hlist).reads
        (by rintro c ⟨⟩; exact .inr rfl) (by simp)
      simpa [Expr.fragment, Expr.tokens, Fragment.chars, harguments, tokensOfAll_eq_map,
        Lowering.fragments_eq_map] using hall
termination_by e => sizeOf e

/-! ## Statements and modules

Keywords, signs and semicolons come with the blanks that lowering puts around them. -/

theorem closes_blanks : ∀ {cs : List Char}, (∀ c ∈ cs, isBlank c = true) → Closes L cs []
  | [], _ => Closes.nil
  | _ :: _, h =>
    (closes_blank (h _ List.mem_cons_self)).append
      (closes_blanks fun c hc => h c (List.mem_cons_of_mem _ hc))

theorem closes_assign : Closes L " = ".toList [.assign] := by
  have hsign := (reads_assign (L := L)).append_closes (closes_blank (c := ' ') rfl) (stops_blank _)
    (by simp)
  exact (closes_blank (c := ' ') rfl).append hsign

/-- The name that is bound has a blank behind it, and so has the sign. -/
theorem closes_binding {name : String} (h : L.isIdentifier name = true) :
    Closes L (name.toList ++ " = ".toList) [.name name, .assign] :=
  (reads_identifier h).append_closes closes_assign (stops_blank _) (by decide)

theorem closes_keyword (k : Keyword) : Closes L (k.text.toList ++ [' ']) [.keyword k] :=
  (reads_keyword k).append_closes (closes_blank rfl) (stops_blank _) (by simp)

theorem closes_semicolon {cs : List Char} {ts : List Token} (h : Reads L cs ts) :
    Closes L (cs ++ [';']) (ts ++ [.semicolon]) :=
  h.append_closes (closes_mark rfl) (by rintro c ⟨⟩; exact .inr rfl) (by simp)

/-- The names that a statement introduces. -/
def Statement.names : Statement → List String
  | .definition d => d.name :: d.parameters.map (·.name)
  | .evaluation _ => []

/-- Inside a definition its parameters are known as well. -/
theorem isIdentifier_of_knows {d : Definition}
    (hknown : ∀ name, known name = true → L.isIdentifier name = true)
    (hparameters : ∀ p ∈ d.parameters, L.isIdentifier p.name = true) (name : String)
    (h : d.knows known name = true) : L.isIdentifier name = true := by
  rw [Definition.knows, Bool.or_eq_true, List.any_eq_true] at h
  rcases h with ⟨p, hp, hname⟩ | h
  · rw [← of_decide_eq_true hname]
    exact hparameters p hp
  · exact hknown name h

/-- Every statement ends with its semicolon, so it closes. -/
theorem closes_statement (hknown : ∀ name, known name = true → L.isIdentifier name = true)
    {s : Statement} (hnames : ∀ name ∈ s.names, L.isIdentifier name = true)
    (hfinite : s.expression.isFinite = true) :
    Closes L (s.fragment known).chars (s.tokens known) := by
  have htracker := closes_binding (isIdentifier_tracker (L := L))
  cases s with
  | evaluation e =>
    have hbody := closes_semicolon
      (reads_expression e.expression (fun name _ => hknown name) hfinite)
    simpa [Statement.fragment, Statement.tokens, Fragment.chars] using htracker.append hbody
  | definition d =>
    have hname := closes_binding (hnames d.name List.mem_cons_self)
    have hhead := (closes_keyword (L := L) .const).append hname
    have hbody : d.body.isFinite = true := hfinite
    cases hparameters : d.parameters.isEmpty with
    | true =>
      have hvalue := closes_semicolon (reads_expression d.body (fun name _ => hknown name) hbody)
      have hall := hhead.append (htracker.append hvalue)
      simpa [Statement.fragment, Statement.tokens, Definition.constantFragment,
        Definition.nameFragment, Fragment.chars, Keyword.text, hparameters] using hall
    | false =>
      -- the parameters are names, and inside the body they are known as well
      have hlist : Reads L
          (Fragment.allChars (Fragment.separated ", " (d.parameters.map Parameter.fragment)))
          ([Token.comma].intercalate (d.parameters.map fun p => [.name p.name])) := by
        refine reads_separated d.parameters fun p hp => ?_
        have hname := hnames p.name (List.mem_cons_of_mem _ (List.mem_map_of_mem hp))
        simpa [Parameter.fragment, Fragment.chars] using reads_identifier hname
      have harrow := ((reads_arrow (L := L)).append_closes (closes_blank (c := ' ') rfl)
        (stops_blank _) (by simp))
      have hinside := fun name => isIdentifier_of_knows (d := d) hknown
        (fun p hp => hnames p.name (List.mem_cons_of_mem _ (List.mem_map_of_mem hp))) name
      have hvalue := closes_semicolon (reads_expression d.body (fun name _ => hinside name) hbody)
      have hall := hhead.append ((closes_parenthesized hlist).append
        ((closes_blank (c := ' ') rfl).append (harrow.append hvalue)))
      simpa [Statement.fragment, Statement.tokens, Definition.functionFragment,
        Definition.nameFragment, Fragment.chars, Keyword.text, hparameters] using hall

/-- By induction on the statements: what one of them defines the next may call, and all that is
defined are identifiers. -/
theorem closes_statements {earlier : List String}
    (hearlier : ∀ name ∈ earlier, L.isIdentifier name = true) {ss : List Statement}
    (hnames : ∀ s ∈ ss, ∀ name ∈ s.names, L.isIdentifier name = true)
    (hfinite : ∀ s ∈ ss, s.expression.isFinite = true) :
    Closes L (Fragment.allChars (statementFragments earlier ss)) (statementTokens earlier ss) := by
  induction ss generalizing earlier with
  | nil => exact Closes.nil
  | cons s ss ih =>
    have hline : Closes L ("\n".toList ++ Lowering.indent.toList) [] :=
      closes_blanks (List.all_iff_forall_prop.mp (by decide))
    have hdefines : ∀ name ∈ s.defines, name ∈ s.names := by
      cases s <;> simp [Statement.defines, Statement.names]
    have hfirst : Closes L (s.fragment fun name => name ∈ earlier).chars
        (s.tokens fun name => name ∈ earlier) :=
      closes_statement (fun name h => hearlier name (of_decide_eq_true h))
        (hnames s List.mem_cons_self) (hfinite s List.mem_cons_self)
    have hlater : ∀ name ∈ earlier ++ s.defines, L.isIdentifier name = true :=
      fun name h => (List.mem_append.mp h).elim (hearlier name)
        fun h => hnames s List.mem_cons_self name (hdefines name h)
    have hrest := ih hlater (fun t ht => hnames t (List.mem_cons_of_mem _ ht))
      (fun t ht => hfinite t (List.mem_cons_of_mem _ ht))
    have hall := hline.append (hfirst.append hrest)
    simpa [statementFragments, statementTokens, Fragment.chars] using hall

/-- **The tokens of the script of a module.** -/
theorem Module.tokens_text {m : Module}
    (hnames : ∀ s ∈ m.statements, ∀ name ∈ s.names, L.isIdentifier name = true)
    (hfinite : ∀ s ∈ m.statements, s.expression.isFinite = true) :
    Script.tokens L m.text = some m.tokens := by
  have hblank : ∀ {c : Char}, isBlank c = true → Closes L [c] [] := closes_blank
  have hmark : ∀ {c : Char} {token : Token}, mark? c = some token → Closes L [c] [token] :=
    closes_mark
  have hquoted : Closes L ('"' :: "use strict".toList ++ ['"']) [.text "use strict".toList] :=
    closes_quoted (List.all_iff_forall_prop.mp (by decide))
  have hdirective := hquoted.append ((hmark (c := ';') rfl).append (hblank (c := '\n') rfl))
  have harrow : Closes L "=> ".toList [.arrow] :=
    reads_arrow.append_closes (hblank (c := ' ') rfl) (stops_blank _) (by simp)
  have hindent : Closes L "\n    ".toList [] :=
    closes_blanks (List.all_iff_forall_prop.mp (by decide))
  have hopen : Closes L "(() => \x7b\n    ".toList
      [.openParen, .openParen, .closeParen, .arrow, .openBrace] :=
    (hmark (c := '(') rfl).append <| (hmark (c := '(') rfl).append <|
      (hmark (c := ')') rfl).append <|
      (hblank (c := ' ') rfl).append <| harrow.append <| (hmark (c := '\x7b') rfl).append hindent
  have htracker := closes_semicolon (reads_identifier (isIdentifier_tracker (L := L)))
  have hdeclare := (closes_keyword (L := L) .declare).append htracker
  have hanswer := (hblank (c := '\n') rfl).append <| hindent.append <|
    (closes_keyword .answer).append htracker
  have hclose : Closes L "\n\x7d)".toList [.closeBrace, .closeParen] :=
    (hblank (c := '\n') rfl).append ((hmark (c := '\x7d') rfl).append (hmark (c := ')') rfl))
  have hstatements : Closes L (Fragment.allChars (statementFragments [] m.statements))
      (statementTokens [] m.statements) := closes_statements (by simp) hnames hfinite
  -- the script is the directive, the opening, the declaration, the statements, the answer and the
  -- closing, and each piece ends its own last token
  have hall := hdirective.append <| hopen.append <| hdeclare.append <| hstatements.append <|
    hanswer.append hclose
  refine Eq.trans (congrArg _ ?_) (hall.reads.tokens_eq.trans (congrArg some ?_))
  · simp [Module.text, Module.fragments, Module.body, Fragment.chars, Keyword.text,
      Lowering.indent]
  · simp [Module.tokens]

end Reading

end ArithScript
