import ArithScript.Proofs.ScriptTokens

/-!
# Grammar of the script

The part of the script that lowering needs: functions with their parameters, declarations,
assignments, calls and arithmetic. Operators have the precedence that the script gives them: sums
are read to the left from products, products to the left from powers, powers to the right, and a
minus binds closer than any operator but may not stand before the base of a power.

The parsers descend through these levels. Parentheses, arguments and bodies lead back to the top, so
every level is given the parser of the top (`inner`), and the nesting of the top in itself is
counted down (`expression`). A text nests no deeper than it has tokens.
-/

set_option autoImplicit false

namespace ArithScript.Script

mutual

/-- An expression of the script. -/
inductive Term where
  | number (value : Double)
  | name (name : String)
  | negate (operand : Term)
  | binary (operator : Operator) (left right : Term)
  | assign (name : String) (value : Term)
  /-- A function whose body is an expression answers with its value. -/
  | function (parameters : List String) (body : List Stmt)
  | call (function : Term) (arguments : List Term)

/-- A statement of the script. -/
inductive Stmt where
  | declare (name : String)
  | constant (name : String) (value : Term)
  | answer (value : Term)
  | evaluate (value : Term)

end

/-- The names that statements declare. -/
def declared (body : List Stmt) : List String :=
  body.flatMap fun
    | .declare name => [name]
    | .constant name _ => [name]
    | _ => []

/-- Reads something from the front of some tokens. -/
abbrev Parser (α : Type) := List Token → Option (α × List Token)

/-- Items with commas between them, up to a closing parenthesis. -/
def items {α : Type} (item : Parser α) : Nat → Parser (List α)
  | 0, _ => none
  | bound + 1, ts =>
    match item ts with
    | some (x, .comma :: ts) => (items item bound ts).map fun (xs, ts) => (x :: xs, ts)
    | some (x, .closeParen :: ts) => some ([x], ts)
    | _ => none

/-- Any number of items behind an opening parenthesis. -/
def enclosed {α : Type} (item : Parser α) : Parser (List α)
  | .closeParen :: ts => some ([], ts)
  | ts => items item ts.length ts

def parameterName : Parser String
  | .name name :: ts => some (name, ts)
  | _ => none

/-- The parameters of a function, with the arrow behind them. -/
def parameters? : Parser (List String)
  | .openParen :: ts =>
    match enclosed parameterName ts with
    | some (names, .arrow :: ts) => some (names, ts)
    | _ => none
  | _ => none

section Levels

variable (inner operand : Parser Term)

def primary : Parser Term
  | .number value :: ts => some (.number value, ts)
  | .name name :: ts => some (.name name, ts)
  | .openParen :: ts =>
    match inner ts with
    | some (e, .closeParen :: ts) => some (e, ts)
    | _ => none
  | _ => none

/-- The argument lists behind a function. -/
def calls : Nat → Term → Parser Term
  | bound + 1, f, .openParen :: ts =>
    (enclosed inner ts).bind fun (arguments, ts) => calls bound (.call f arguments) ts
  | _, f, ts => some (f, ts)

def application : Parser Term := fun ts =>
  (primary inner ts).bind fun (f, ts) => calls inner ts.length f ts

/-- An operand with any number of minuses before it. -/
def signed : Nat → Parser Term
  | bound + 1, .operator .sub :: ts =>
    (signed bound ts).map fun (e, ts) => (.negate e, ts)
  | _, ts => operand ts

def powers : Nat → Parser Term
  | 0, _ => none
  | bound + 1, ts =>
    match ts with
    | .operator .sub :: ts =>
      match signed operand ts.length ts with
      | some (_, .operator .pow :: _) => none
      | some (e, ts) => some (.negate e, ts)
      | none => none
    | ts =>
      match operand ts with
      | some (base, .operator .pow :: ts) =>
        (powers bound ts).map fun (e, ts) => (.binary .pow base e, ts)
      | result => result

/-- The operands to the right of a first one. -/
def chain (operators : List Operator) : Nat → Term → Parser Term
  | bound + 1, left, .operator o :: ts =>
    if o ∈ operators then
      (operand ts).bind fun (right, ts) => chain operators bound (.binary o left right) ts
    else some (left, .operator o :: ts)
  | _, left, ts => some (left, ts)

def leftward (operators : List Operator) : Parser Term := fun ts =>
  (operand ts).bind fun (left, ts) => chain operand operators ts.length left ts

def power : Parser Term := fun ts => powers (application inner) ts.length ts

def product : Parser Term := leftward (power inner) [.mul, .div, .mod]

def sum : Parser Term := leftward (product inner) [.add, .sub]

/-- An expression with a semicolon behind it. -/
def ended (make : Term → Stmt) : Parser Stmt := fun ts =>
  match inner ts with
  | some (e, .semicolon :: ts) => some (make e, ts)
  | _ => none

def statement : Parser Stmt
  | .keyword .declare :: .name name :: .semicolon :: ts => some (.declare name, ts)
  | .keyword .const :: .name name :: .assign :: ts => ended inner (.constant name) ts
  | .keyword .answer :: ts => ended inner .answer ts
  | ts => ended inner .evaluate ts

/-- Statements up to a closing brace. -/
def block : Nat → Parser (List Stmt)
  | 0, _ => none
  | _ + 1, .closeBrace :: ts => some ([], ts)
  | bound + 1, ts =>
    (statement inner ts).bind fun (s, ts) =>
      (block bound ts).map fun (body, ts) => (s :: body, ts)

def functionBody : Parser (List Stmt)
  | .openBrace :: ts => block inner ts.length ts
  | ts => (inner ts).map fun (e, ts) => ([.answer e], ts)

/-- The top level. A function may not give two of its names the same. -/
def assignment : Parser Term
  | .name name :: .assign :: ts => (inner ts).map fun (e, ts) => (.assign name e, ts)
  | ts =>
    match parameters? ts with
    | some (names, ts) =>
      (functionBody inner ts).bind fun (body, ts) =>
        if (names ++ declared body).Nodup then some (.function names body, ts) else none
    | none => sum inner ts

end Levels

/-- An expression that nests no deeper than a bound. -/
def expression : Nat → Parser Term
  | 0, _ => none
  | bound + 1, ts => assignment (expression bound) ts

/-- A text in strict mode that is a single expression. -/
def program? : List Token → Option Term
  | .text directive :: .semicolon :: ts =>
    if directive = "use strict".toList then
      match expression ts.length ts with
      | some (e, []) => some e
      | some (e, [.semicolon]) => some e
      | _ => none
    else none
  | _ => none

/-! ## What a level reads

A level passes on what the level below reads, unless one of its own operators follows. -/

section Reading

variable {inner operand : Parser Term} {ts rest : List Token}

theorem calls_of_ne (h : rest.head? ≠ some .openParen) (bound : Nat) (f : Term) :
    calls inner bound f rest = some (f, rest) := by
  unfold calls
  split
  · exact absurd rfl h
  · rfl

theorem application_of_primary {f : Term} (h : primary inner ts = some (f, rest))
    (hrest : rest.head? ≠ some .openParen) : application inner ts = some (f, rest) := by
  rw [application, h, Option.bind_some]
  exact calls_of_ne hrest _ f

/-- A power without a sign and without an operator is its base. -/
theorem powers_of_operand {e : Term} (bound : Nat) (h : operand ts = some (e, rest))
    (hts : ts.head? ≠ some (.operator .sub)) (hrest : rest.head? ≠ some (.operator .pow)) :
    powers operand (bound + 1) ts = some (e, rest) := by
  rw [powers]
  · split
    · next hpow =>
      rw [h] at hpow
      cases hpow
      exact absurd rfl hrest
    · exact h
  · rintro _ rfl
    exact hts rfl

/-- Behind the operator there is another power, so powers are read to the right. -/
theorem powers_pow {base e : Term} {mid : List Token} {bound : Nat}
    (h : operand ts = some (base, .operator .pow :: mid))
    (hts : ts.head? ≠ some (.operator .sub)) (hmid : powers operand bound mid = some (e, rest)) :
    powers operand (bound + 1) ts = some (.binary .pow base e, rest) := by
  rw [powers]
  · simp [h, hmid]
  · rintro _ rfl
    exact hts rfl

/-- A minus is read in front of what is no power. In front of the base of one it is refused,
whatever stands behind. -/
theorem powers_sub {e : Term} (bound : Nat) (h : operand ts = some (e, rest))
    (hts : ts.head? ≠ some (.operator .sub)) (hrest : rest.head? ≠ some (.operator .pow)) :
    powers operand (bound + 1) (.operator .sub :: ts) = some (.negate e, rest) := by
  have hsigned : signed operand ts.length ts = some (e, rest) := by
    unfold signed
    split
    · exact absurd rfl hts
    · exact h
  rw [powers, hsigned]
  split
  · next heq =>
    cases heq
    exact absurd rfl hrest
  · next heq =>
    cases heq
    rfl
  · next heq => cases heq

/-- The bound of a power is the number of its tokens, and the base takes at least one of them. -/
theorem power_pow {base e : Term} {ls mid : List Token} (hls : ls ≠ [])
    (h : application inner (ls ++ .operator .pow :: mid) = some (base, .operator .pow :: mid))
    (hts : (ls ++ .operator .pow :: mid).head? ≠ some (.operator .sub))
    (hmid : ∀ bound, powers (application inner) (bound + 1) mid = some (e, rest)) :
    power inner (ls ++ .operator .pow :: mid) = some (.binary .pow base e, rest) := by
  obtain ⟨bound, hbound⟩ : ∃ bound, (ls ++ .operator .pow :: mid).length = bound + 1 + 1 := by
    obtain ⟨t, ts, rfl⟩ := List.exists_cons_of_ne_nil hls
    exact ⟨ts.length + mid.length, by simp; omega⟩
  rw [power, hbound]
  exact powers_pow h hts (hmid bound)

theorem chain_of_ne {operators : List Operator}
    (h : ∀ o ∈ operators, rest.head? ≠ some (.operator o)) (bound : Nat) (left : Term) :
    chain operand operators bound left rest = some (left, rest) := by
  unfold chain
  split
  · next o ts =>
    rw [if_neg]
    intro ho
    exact h o ho rfl
  · rfl

theorem leftward_of_operand {operators : List Operator} {left : Term}
    (h : operand ts = some (left, rest))
    (hrest : ∀ o ∈ operators, rest.head? ≠ some (.operator o)) :
    leftward operand operators ts = some (left, rest) := by
  rw [leftward, h, Option.bind_some]
  exact chain_of_ne hrest _ left

theorem leftward_binary {operators : List Operator} {o : Operator} {left right : Term}
    {mid : List Token} (ho : o ∈ operators) (h : operand ts = some (left, .operator o :: mid))
    (hmid : operand mid = some (right, rest))
    (hrest : ∀ o ∈ operators, rest.head? ≠ some (.operator o)) :
    leftward operand operators ts = some (.binary o left right, rest) := by
  rw [leftward, h, Option.bind_some]
  dsimp only
  rw [List.length_cons, chain, if_pos ho, hmid, Option.bind_some]
  exact chain_of_ne hrest _ _

/-- What is read at the bottom is read at the top, if no operator and no arguments follow. -/
theorem sum_of_primary {t : Token} {e : Term} (h : primary inner (t :: ts) = some (e, rest))
    (ht : t ≠ .operator .sub) (hparen : rest.head? ≠ some .openParen)
    (hrest : ∀ o, rest.head? ≠ some (.operator o)) : sum inner (t :: ts) = some (e, rest) := by
  have hpower : power inner (t :: ts) = some (e, rest) :=
    powers_of_operand _ (application_of_primary h hparen) (by simpa using ht) (hrest .pow)
  exact leftward_of_operand (leftward_of_operand hpower fun o _ => hrest o) fun o _ => hrest o

theorem block_cons {s : Stmt} {body : List Stmt} {mid : List Token} {bound : Nat}
    (hts : ts.head? ≠ some .closeBrace) (hs : statement inner ts = some (s, mid))
    (hbody : block inner bound mid = some (body, rest)) :
    block inner (bound + 1) ts = some (s :: body, rest) := by
  rw [block]
  · rw [hs, Option.bind_some]
    dsimp only
    rw [hbody]
    rfl
  · rintro _ rfl
    exact hts rfl

/-- What is neither an assignment nor a function is read as a sum. -/
theorem assignment_eq_sum (hassign : ∀ name us, ts ≠ .name name :: .assign :: us)
    (hfunction : parameters? ts = none) : assignment inner ts = sum inner ts := by
  unfold assignment
  split
  · exact absurd rfl (hassign _ _)
  · rw [hfunction]

/-- Parameters with an arrow behind them begin a function. No name may be declared twice in it, nor
hide a parameter. -/
theorem assignment_function {names : List String} {body : List Stmt} {mid : List Token}
    (hnames : parameters? ts = some (names, mid))
    (hbody : functionBody inner mid = some (body, rest)) (hnodup : (names ++ declared body).Nodup) :
    assignment inner ts = some (.function names body, rest) := by
  unfold assignment
  split
  · cases hnames
  · rw [hnames]
    dsimp only
    rw [hbody, Option.bind_some]
    exact if_pos hnodup

theorem ended_of_eq {make : Term → Stmt} {e : Term} (h : inner ts = some (e, .semicolon :: rest)) :
    ended inner make ts = some (make e, rest) := by
  rw [ended, h]

end Reading

/-- Items that are each read in front of a comma or parenthesis are read in a row. -/
theorem items_intercalate {ι α : Type} {item : Parser α} {tokensOf : ι → List Token} {value : ι → α}
    {rest : List Token} : ∀ {is : List ι} {bound : Nat}, is ≠ [] → is.length ≤ bound →
    (∀ i ∈ is, ∀ t ts, t = .comma ∨ t = .closeParen →
      item (tokensOf i ++ t :: ts) = some (value i, t :: ts)) →
    items item bound ([Token.comma].intercalate (is.map tokensOf) ++ .closeParen :: rest)
      = some (is.map value, rest)
  | [i], bound + 1, _, _, each => by
    have := each i List.mem_cons_self .closeParen rest (.inr rfl)
    simp [items, this]
  | i :: j :: is, bound + 1, _, hbound, each => by
    have hrest : items item bound
        ([Token.comma].intercalate ((j :: is).map tokensOf) ++ .closeParen :: rest)
          = some ((j :: is).map value, rest) :=
      items_intercalate (by simp) (Nat.le_of_succ_le_succ hbound) fun k hk =>
        each k (List.mem_cons_of_mem _ hk)
    have hfirst := each i List.mem_cons_self .comma
      ([Token.comma].intercalate ((j :: is).map tokensOf) ++ .closeParen :: rest) (.inl rfl)
    rw [List.map_cons, List.map_cons, List.intercalate_cons_cons, List.append_assoc,
      List.append_assoc, List.singleton_append, items, ← List.map_cons, hfirst]
    dsimp only
    rw [hrest]
    rfl

/-- There is a separator between any two lists, so at most one list more than there are tokens, even
if the lists are empty. -/
theorem length_le_intercalate (separator : Token) :
    ∀ ls : List (List Token), ls.length ≤ ([separator].intercalate ls).length + 1
  | [] => Nat.zero_le _
  | [l] => by simp
  | l :: m :: ls => by
    have := length_le_intercalate separator (m :: ls)
    simp only [List.intercalate_cons_cons, List.length_append, List.length_cons,
      List.length_nil] at this ⊢
    omega

/-- Items in parentheses, with commas, if the parser of items stops at a comma and at the
parenthesis. -/
theorem enclosed_intercalate {ι α : Type} {item : Parser α} {tokensOf : ι → List Token}
    {value : ι → α} {rest : List Token} {is : List ι} (hne : is ≠ [])
    (hfirst : ∀ i ∈ is, ∃ t ts, tokensOf i = t :: ts ∧ t ≠ .closeParen)
    (each : ∀ i ∈ is, ∀ t ts, t = .comma ∨ t = .closeParen →
      item (tokensOf i ++ t :: ts) = some (value i, t :: ts)) :
    enclosed item ([Token.comma].intercalate (is.map tokensOf) ++ .closeParen :: rest)
      = some (is.map value, rest) := by
  have hopen : ∀ ts, [Token.comma].intercalate (is.map tokensOf) ++ .closeParen :: rest
      ≠ .closeParen :: ts := by
    obtain ⟨i, is, rfl⟩ := List.exists_cons_of_ne_nil hne
    obtain ⟨t, ts, htokens, ht⟩ := hfirst i List.mem_cons_self
    intro us heq
    cases is <;> simp [htokens, List.intercalate] at heq <;> exact ht heq.1
  have hbound := length_le_intercalate .comma (is.map tokensOf)
  unfold enclosed
  split
  · next heq => exact absurd heq (hopen _)
  · refine items_intercalate hne ?_ each
    rw [List.length_map] at hbound
    rw [List.length_append, List.length_cons]
    omega

end ArithScript.Script
