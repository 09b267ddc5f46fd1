import ArithScript.Proofs.LoweredTerms

/-!
# Parentheses of lowered expressions

Lowering puts an operand in parentheses unless it is atomic, and a literal below zero also where it
is the base of a power. From any emitter this is enough: the text that an expression adds is read by
the grammar to its end, as the tree of that expression (`expression_parses`).

The second rule is there because the script refuses a minus before the base of a power. To say that
none stands there, the grammar is not asked: `RaisesNegated` looks for such a minus anywhere in the
tokens. Lowered tokens are `Guarded` against it, from left to right. All that has to be remembered
of the tokens before is whether they end an operand, since behind an operand a minus is a
difference.
-/

set_option autoImplicit false

namespace ArithScript

namespace Script

/-! ## Signs before a base

The tokens in front of a power are gone through from the left. A minus that does not stand behind an
operand is a sign, and what follows it must not be the base of a power. -/

/-- Whether an operand may end with a token. A minus behind any other is a sign. -/
def Token.endsOperand : Token → Bool
  | .number _ | .name _ | .closeParen => true
  | _ => false

/-- Somewhere a sign stands before an operand that is raised to a power. -/
def RaisesNegated (ts : List Token) : Prop :=
  ∃ before behind exponent base bound,
    ts = before ++ .operator .sub :: behind
      ∧ (∀ t ∈ before.getLast?, t.endsOperand = false)
      ∧ application (expression bound) behind = some (base, .operator .pow :: exponent)

/-- Whether tokens start with a number and go on with neither a power nor a call of it. -/
def bareNumber : List Token → Bool
  | [.number _] => true
  | .number _ :: t :: _ => t != .operator .pow && t != .openParen
  | _ => false

/-- Whether every sign stands before a bare number, in tokens that follow the end of an operand or
do not. -/
def guarded : Bool → List Token → Bool
  | _, [] => true
  | operand, t :: ts =>
    (operand || t != .operator .sub || bareNumber ts) && guarded t.endsOperand ts

theorem guarded_cons_of_ne {t : Token} (h : t ≠ .operator .sub) (operand : Bool) (ts : List Token) :
    guarded operand (t :: ts) = guarded t.endsOperand ts := by
  simp [guarded, h]

/-- Behind an operand any token may follow. -/
theorem guarded_true_cons (t : Token) (ts : List Token) :
    guarded true (t :: ts) = guarded t.endsOperand ts := by
  simp [guarded]

/-- **A sign in guarded tokens** stands before a bare number. The induction is on the tokens before
it, with what is remembered of those before them. -/
theorem bareNumber_of_guarded {before behind : List Token} {operand : Bool}
    (h : guarded operand (before ++ .operator .sub :: behind) = true)
    (hlast : (before.getLast?.map Token.endsOperand).getD operand = false) :
    bareNumber behind = true := by
  induction before generalizing operand with
  | nil =>
    obtain rfl : operand = false := hlast
    rw [List.nil_append, guarded, Bool.and_eq_true] at h
    simpa using h.1
  | cons t before ih =>
    rw [List.cons_append, guarded, Bool.and_eq_true] at h
    refine ih h.2 ?_
    cases before with
    | nil => exact hlast
    | cons u before =>
      rw [List.getLast?_cons_cons, List.getLast?_cons] at hlast
      rw [List.getLast?_cons]
      exact hlast

/-- A bare number is an operand of its own. -/
theorem application_of_bareNumber {inner : Parser Term} {ts rest : List Token} {base : Term}
    (h : bareNumber ts = true) (hread : application inner ts = some (base, rest)) :
    rest.head? ≠ some (.operator .pow) := by
  unfold bareNumber at h
  split at h
  · cases hread
    simp
  · next value t ts =>
    rw [Bool.and_eq_true, bne_iff_ne, bne_iff_ne] at h
    have hnumber : application inner (.number value :: t :: ts) = some (.number value, t :: ts) :=
      application_of_primary rfl (by simpa using h.2)
    rw [hnumber] at hread
    cases hread
    simpa using h.1
  · cases h

theorem not_raisesNegated_of_guarded {ts : List Token} (h : guarded false ts = true) :
    ¬ RaisesNegated ts := by
  rintro ⟨before, behind, exponent, base, bound, rfl, hlast, hread⟩
  refine application_of_bareNumber (bareNumber_of_guarded h ?_) hread rfl
  cases hbefore : before.getLast? with
  | none => rfl
  | some t => exact hlast t hbefore

end Script

open Script

/-! ## Lowered tokens are guarded

Whatever an expression is followed by, its own tokens are guarded. A base that is a literal below
zero is in parentheses, and behind an opening parenthesis one starts anew. -/

section Guards

variable {known : String → Bool}

/-- Neither a power nor a call stands in front of tokens. -/
def Loose (rest : List Token) : Prop :=
  rest.head? ≠ some (.operator .pow) ∧ rest.head? ≠ some .openParen

theorem guarded_literal (value : Double) {rest : List Token}
    (h : value.isNegative = false ∨ Loose rest) :
    guarded false (literalTokens value ++ rest) = guarded true rest := by
  unfold literalTokens
  split
  · next hnegative =>
    obtain ⟨hpow, hparen⟩ := h.resolve_left (by simp [hnegative])
    have hbare : bareNumber (.number value.abs :: rest) = true := by
      cases rest with
      | nil => rfl
      | cons t rest => simpa [bareNumber] using And.intro hpow hparen
    simp [guarded, hbare, Token.endsOperand]
  · exact guarded_cons_of_ne (by simp) false rest

/-- Where an expression can stand bare, or neither a power nor a call follows it, its tokens are
guarded and end an operand. -/
def IsGuarded (known : String → Bool) (x : Expr) : Prop :=
  ∀ rest, (x.isAtomic = true ∧ x.isNegativeLiteral = false) ∨ Loose rest →
    guarded false (x.tokens known ++ rest) = guarded true rest

theorem IsGuarded.operand {x : Expr} (hx : IsGuarded known x) {wrap : Bool} {rest : List Token}
    (h : (x.isNegativeLiteral = true → wrap = true) ∨ Loose rest) :
    guarded false (operandTokens x wrap (x.tokens known) ++ rest) = guarded true rest := by
  unfold operandTokens
  split
  · next hatomic =>
    rw [Bool.and_eq_true, Bool.not_eq_true'] at hatomic
    refine hx rest (h.imp_left fun hwrap => ⟨hatomic.1, ?_⟩)
    exact Bool.eq_false_iff.mpr fun hnegative => by simp [hwrap hnegative] at hatomic
  · have hinner := hx (.closeParen :: rest) (.inr ⟨by simp, by simp⟩)
    rw [List.cons_append, List.cons_append, List.append_assoc, List.singleton_append,
      guarded_cons_of_ne (by simp)]
    exact hinner.trans (guarded_true_cons _ rest)

theorem guarded_arguments {arguments : List Expr} (hne : arguments ≠ [])
    (h : ∀ a ∈ arguments, IsGuarded known a) (rest : List Token) :
    guarded false ([Token.comma].intercalate (arguments.map (·.tokens known))
      ++ .closeParen :: rest)
      = guarded true rest := by
  induction arguments with
  | nil => exact absurd rfl hne
  | cons a arguments ih =>
    have hfirst := h a List.mem_cons_self
    cases arguments with
    | nil =>
      rw [List.map_singleton, List.intercalate_singleton,
        hfirst (.closeParen :: rest) (.inr ⟨by simp, by simp⟩)]
      exact guarded_true_cons _ rest
    | cons b arguments =>
      have hlater := ih (by simp) fun c hc => h c (List.mem_cons_of_mem a hc)
      rw [List.map_cons, List.map_cons, List.intercalate_cons_cons, List.append_assoc,
        List.append_assoc, List.singleton_append, ← List.map_cons,
        hfirst _ (.inr ⟨by simp, by simp⟩)]
      exact (guarded_true_cons _ _).trans hlater

theorem isGuarded_binary {o : Operator} {operatorRegion region : Option Region} {left right : Expr}
    (hleft : IsGuarded known left) (hright : IsGuarded known right) :
    IsGuarded known (.binary o operatorRegion left right region) := by
  intro rest hrest
  have hloose : Loose rest := hrest.resolve_left fun h => by cases h.1
  rw [Expr.tokens, List.append_assoc, List.cons_append, hleft.operand, guarded_true_cons]
  · exact hright.operand (.inr hloose)
  · -- only before a power does a literal below zero have to be wrapped
    by_cases ho : o = .pow
    · exact .inl fun hnegative => by simp [ho, hnegative]
    · exact .inr ⟨by simpa using ho, by simp⟩

/-- **The tokens of every expression are guarded.** -/
theorem isGuarded_expression (known : String → Bool) (x : Expr) : IsGuarded known x := by
  cases x with
  | literal value region => exact fun rest h => guarded_literal value (h.imp_left And.right)
  | binary o operatorRegion left right region =>
    exact isGuarded_binary (isGuarded_expression known left) (isGuarded_expression known right)
  | call function arguments region =>
    intro rest _
    rw [Expr.tokens, List.cons_append, guarded_cons_of_ne (by simp)]
    cases hempty : arguments.isEmpty with
    | true => rfl
    | false =>
      have hlist := guarded_arguments (by simpa using hempty)
        (fun a _ => isGuarded_expression known a) rest
      simp only [tokensOfAll_eq_map, Bool.false_eq_true, if_false, List.cons_append,
        List.append_assoc, List.nil_append]
      exact (guarded_true_cons _ _).trans hlist
termination_by sizeOf x

end Guards

/-! ## Lowered expressions

The emitter may be inside anything. What it adds for an expression is the fragment of that
expression, with the names that are known at the place. -/

namespace Lowering

/-- **The text of an expression parses to its tree.** From any emitter, in the middle of anything,
an expression within the limit is lowered, and the text that this adds is read in full as the term
of the expression, in which a name that refers to nothing is `undefined` and a literal below zero is
the negation of a number. Nowhere in the text does a sign stand before the base of a power. -/
theorem expression_parses {L : Lexicon} {x : Expr} {e : Emitter}
    (hnames : ∀ name ∈ x.names, L.isIdentifier name = true) (hfinite : x.isFinite = true)
    (hheight : e.depth + x.height ≤ e.maxDepth) :
    ∃ (text : String) (ts : List Token),
      (expression x e).1 = .ok ()
        ∧ (expression x e).2.writer.text = e.writer.text ++ text
        ∧ Script.tokens L text.toList = some ts
        ∧ Script.expression ts.length ts = some (x.term (knows e.scope), [])
        ∧ ¬ RaisesNegated ts := by
  -- the depth is enough, so the text is that of the fragment; the rest is about its tokens
  have hdone := (writes_expression x).done e (.inr hheight)
  have hreads : Reads L (x.fragment (knows e.scope)).chars (x.tokens (knows e.scope)) :=
    reads_expression x (fun name hname _ => hnames name hname) hfinite
  refine ⟨String.ofList (x.fragment (knows e.scope)).chars, x.tokens (knows e.scope),
    ?_, ?_, ?_, ?_, ?_⟩
  · rw [hdone]
  · rw [hdone]
    refine String.toList_inj.mp ?_
    rw [String.toList_append, String.toList_ofList]
    exact (Fragment.chars_writeAll [x.fragment (knows e.scope)] e.writer).trans (by simp)
  · rw [String.toList_ofList]
    exact hreads.tokens_eq
  · have hparse := parses_expression (knows e.scope) _ x (Nat.le_refl _) [] (by simp [Ends])
    rwa [List.append_nil] at hparse
  · have hguarded := isGuarded_expression (knows e.scope) x [] (.inr ⟨by simp, by simp⟩)
    rw [List.append_nil] at hguarded
    exact not_raisesNegated_of_guarded hguarded

/-- The expression `-2 ^ (f(-1) - 3)`, whose base is the literal. -/
def negativeBase : Expr :=
  .binary .pow none (.literal (.ofInt (-2)) none)
    (.binary .sub none (.call ⟨"f", none⟩ [.literal (.ofInt (-1)) none] none)
      (.literal (.ofNat 3) none) none) none

/-- Where nothing is called `f`, the sample is read as `(-2) ** (undefined(-1) - 3)`. -/
theorem expression_parses_negativeBase :
    (∀ name ∈ negativeBase.names, Lexicon.ascii.isIdentifier name = true)
      ∧ negativeBase.isFinite = true
      ∧ ∃ (text : String) (ts : List Token),
        (expression negativeBase (Emitter.ofModule ⟨none, []⟩ 4)).1 = .ok ()
          ∧ (expression negativeBase (Emitter.ofModule ⟨none, []⟩ 4)).2.writer.text = text
          ∧ Script.tokens Lexicon.ascii text.toList = some ts
          ∧ Script.expression ts.length ts = some (.binary .pow (.negate (.number (.ofNat 2)))
              (.binary .sub (.call (.name "undefined") [.negate (.number (.ofNat 1))])
                (.number (.ofNat 3))), [])
          ∧ ¬ RaisesNegated ts := by
  have hnames : ∀ name ∈ negativeBase.names, Lexicon.ascii.isIdentifier name = true := by decide
  obtain ⟨text, ts, hok, htext, htokens, hparse, hsigns⟩ :=
    expression_parses (e := Emitter.ofModule ⟨none, []⟩ 4) hnames (by decide) (by decide)
  have htwo : (Double.ofInt (-2)).abs = .ofNat 2 := by decide
  have hone : (Double.ofInt (-1)).abs = .ofNat 1 := by decide
  have hthree : (Double.ofNat 3).abs = .ofNat 3 := by decide
  have hterm : negativeBase.term (knows (Emitter.ofModule ⟨none, []⟩ 4).scope)
      = .binary .pow (.negate (.number (Double.ofInt (-2)).abs)) (.binary .sub
          (.call (.name "undefined") [.negate (.number (Double.ofInt (-1)).abs)])
          (.number (Double.ofNat 3).abs)) := rfl
  rw [hterm, htwo, hone, hthree] at hparse
  exact ⟨hnames, by decide, text, ts, hok, htext.trans String.empty_append, htokens, hparse, hsigns⟩

/-- **A negative zero is read as zero.** The literal is written as `0`, which is read as neither
that literal nor the negation of zero. -/
theorem negativeZero_parses_to_zero :
    let x : Expr := .literal (Double.ofNat 0).negate none
    let e := Emitter.ofModule ⟨none, []⟩ 1
    x.isFinite = true ∧ x.names = [] ∧ e.depth + x.height ≤ e.maxDepth
      ∧ (expression x e).1 = .ok () ∧ (expression x e).2.writer.text = "0"
      ∧ ∃ ts, Script.tokens Lexicon.ascii "0".toList = some ts
        ∧ Script.expression ts.length ts = some (.number (.ofNat 0), [])
        ∧ Term.number (.ofNat 0) ≠ .number (Double.ofNat 0).negate
        ∧ Term.number (.ofNat 0) ≠ .negate (.number (Double.ofNat 0).negate.abs) := by
  have hread : Reads Lexicon.ascii (numeral (Double.ofNat 0).negate)
      (literalTokens (Double.ofNat 0).negate) := reads_numeral (by decide)
  have hnumeral : numeral (Double.ofNat 0).negate = "0".toList := by decide
  have htokens : literalTokens (Double.ofNat 0).negate = [.number (.ofNat 0)] := by decide
  have hzero : Double.ofNat 0 ≠ (Double.ofNat 0).negate := by decide
  rw [hnumeral, htokens] at hread
  exact ⟨by decide, rfl, by decide, by decide, by decide, [.number (.ofNat 0)],
    hread.tokens_eq, rfl, fun heq => hzero (Term.number.inj heq), nofun⟩

end Lowering

end ArithScript
