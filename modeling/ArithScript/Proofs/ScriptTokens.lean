import ArithScript.Lowering.Module
import ArithScript.Proofs.NumeralReading
import Mathlib.Data.Bool.AllAny

/-!
# Tokens of the script

A text of the script is cut into tokens from the left, each as long as it can be. Words, numerals
and operators are runs of characters of one kind; blanks, brackets, commas and semicolons stand for
themselves and end any run. So a token reads the same in front of whatever starts with one of those
(`Reads`), and a text that ends with one of them reads the same in front of anything (`Closes`).
Both compose, and with one lemma for each kind of token that is all that is needed to find the
tokens of a text that is put together from pieces.

Which characters make up words, and which words are reserved, depends on the edition of the script
and of Unicode. A `Lexicon` is any choice that agrees with the characters that are not in words.
-/

set_option autoImplicit false

namespace ArithScript.Script

/-- The reserved words that have a use here. -/
inductive Keyword where
  | const
  | declare
  | answer
  deriving DecidableEq, Repr

/-- The text of a keyword. -/
def Keyword.text : Keyword → String
  | .const => "const"
  | .declare => "let"
  | .answer => "return"

def Keyword.all : List Keyword := [.const, .declare, .answer]

/-- A token of the script. -/
inductive Token where
  | number (value : Double)
  | name (name : String)
  | keyword (keyword : Keyword)
  | text (chars : List Char)
  | operator (operator : Operator)
  | assign
  | arrow
  | openParen
  | closeParen
  | openBrace
  | closeBrace
  | comma
  | semicolon
  deriving DecidableEq, Repr

def isBlank (c : Char) : Bool := c = ' ' || c = '\t' || c = '\n' || c = '\r'

/-- The tokens that are a single character, and end any token before them. -/
def mark? : Char → Option Token
  | '(' => some .openParen
  | ')' => some .closeParen
  | '\x7b' => some .openBrace
  | '\x7d' => some .closeBrace
  | ',' => some .comma
  | ';' => some .semicolon
  | _ => none

/-- The characters that operators, assignments and arrows are made of. -/
def isSign (c : Char) : Bool := "+-*/%=<>!&|^~?:".toList.contains c

/-- Characters that are never part of a word. -/
def isOutsideWords (c : Char) : Bool :=
  isBlank c || (mark? c).isSome || isSign c || c = '.' || c = '"'

/-- The words of the script. -/
structure Lexicon where
  /-- Whether a word may start with a character. -/
  starts : Char → Bool
  /-- Whether a word may go on with a character. -/
  continues : Char → Bool
  reserved : String → Bool
  starts_letter : ∀ c, c.isAlpha = true → starts c = true
  not_starts_digit : ∀ c, c.isDigit = true → starts c = false
  continues_of_starts : ∀ c, starts c = true → continues c = true
  not_continues : ∀ c, isOutsideWords c = true → continues c = false
  reserved_keyword : ∀ k : Keyword, reserved k.text = true
  not_reserved_unresolved : reserved Lowering.unresolved = false
  not_reserved_tracker : reserved Lowering.tracker = false

variable (L : Lexicon)

/-- Whether a name is a word that is not reserved. -/
def Lexicon.isIdentifier (name : String) : Bool :=
  match name.toList with
  | [] => false
  | c :: cs => L.starts c && cs.all L.continues && !L.reserved name

/-- The token of a word. A reserved word without a use here is none. -/
def Lexicon.word? (cs : List Char) : Option Token :=
  let word := String.ofList cs
  match Keyword.all.find? (·.text = word) with
  | some keyword => some (.keyword keyword)
  | none => if L.reserved word then none else some (.name word)

/-- The token of a run of signs. -/
def sign? (cs : List Char) : Option Token :=
  if cs = ['='] then some .assign
  else if cs = ['=', '>'] then some .arrow
  else (Operator.all.find? (·.scriptToken.toList = cs)).map .operator

/-- What starts with a character: the kind of characters that it goes on with, and how it is
read. -/
def Lexicon.run? (c : Char) : Option ((Char → Bool) × (List Char → Option Token)) :=
  if c.isDigit then
    some (fun c => c.isDigit || c = '.' || L.continues c, fun cs => (numeralValue? cs).map .number)
  else if L.starts c then some (L.continues, L.word?)
  else if isSign c then some (isSign, sign?)
  else none

/-- The text up to the next quote. -/
def quoted? (cs : List Char) : Option (Token × List Char) :=
  let plain (c : Char) : Bool := c ≠ '"' && c ≠ '\\' && c ≠ '\n'
  match cs.dropWhile plain with
  | '"' :: rest => some (.text (cs.takeWhile plain), rest)
  | _ => none

/-- Cuts off a blank or a token. -/
def lexeme? (c : Char) (cs : List Char) : Option (List Token × List Char) :=
  if isBlank c then some ([], cs)
  else match mark? c with
    | some token => some ([token], cs)
    | none =>
      if c = '"' then (quoted? cs).map fun (token, rest) => ([token], rest)
      else (L.run? c).bind fun (kind, read) =>
        (read (c :: cs.takeWhile kind)).map fun token => ([token], cs.dropWhile kind)

theorem length_quoted? {cs rest : List Char} {token : Token}
    (h : quoted? cs = some (token, rest)) : rest.length ≤ cs.length := by
  unfold quoted? at h
  dsimp only at h
  split at h
  · next hdrop =>
    cases h
    have hle := (List.dropWhile_suffix (fun c : Char => c ≠ '"' && c ≠ '\\' && c ≠ '\n')
      (l := cs)).length_le
    rw [hdrop, List.length_cons] at hle
    omega
  · cases h

/-- A lexeme takes at least its first character, so cutting a text into tokens comes to an end. -/
theorem length_lexeme? {c : Char} {cs rest : List Char} {ts : List Token}
    (h : lexeme? L c cs = some (ts, rest)) : rest.length ≤ cs.length := by
  unfold lexeme? at h
  split at h
  · cases h
    exact Nat.le_refl _
  · split at h
    · cases h
      exact Nat.le_refl _
    · split at h
      · obtain ⟨⟨token, rest'⟩, hquoted, heq⟩ := Option.map_eq_some_iff.mp h
        cases heq
        exact length_quoted? hquoted
      · obtain ⟨⟨kind, read⟩, -, hread⟩ := Option.bind_eq_some_iff.mp h
        obtain ⟨token, -, heq⟩ := Option.map_eq_some_iff.mp hread
        cases heq
        exact (List.dropWhile_suffix kind).length_le

/-- The tokens of a text. -/
def tokens : List Char → Option (List Token)
  | [] => some []
  | c :: cs =>
    match h : lexeme? L c cs with
    | none => none
    | some (ts, rest) =>
      have : rest.length ≤ cs.length := length_lexeme? L h
      (tokens rest).map (ts ++ ·)
termination_by cs => cs.length

variable {L}

theorem tokens_nil : tokens L [] = some [] := by rw [tokens]

/-- The tokens of a text are those of its first lexeme, and then those of the rest. This is the only
equation about `tokens` that is used from here on. -/
theorem tokens_cons {c : Char} {cs rest : List Char} {ts : List Token}
    (h : lexeme? L c cs = some (ts, rest)) :
    tokens L (c :: cs) = (tokens L rest).map (ts ++ ·) := by
  rw [tokens]
  split
  · next hnone =>
    rw [h] at hnone
    cases hnone
  · next hsome =>
    rw [h] at hsome
    cases hsome
    rfl

/-! ## Pieces of text

A text is put together from pieces, and its tokens from those of the pieces. That is so if no token
goes on from one piece to the next. Either the first piece ends with something that no token goes on
behind (`Closes`), or the second begins with something that ends every token (`Stops`). -/

/-- Whether a text starts with something that ends any token before it. -/
def Stops (rest : List Char) : Prop := ∀ c ∈ rest.head?, isBlank c = true ∨ (mark? c).isSome = true

/-- A piece of text has the given tokens wherever a token may end behind it. -/
def Reads (L : Lexicon) (cs : List Char) (ts : List Token) : Prop :=
  ∀ rest, Stops rest → tokens L (cs ++ rest) = (tokens L rest).map (ts ++ ·)

/-- A piece of text has the given tokens whatever comes behind it. -/
def Closes (L : Lexicon) (cs : List Char) (ts : List Token) : Prop :=
  ∀ rest, tokens L (cs ++ rest) = (tokens L rest).map (ts ++ ·)

section Pieces

variable {as bs : List Char} {ss ts : List Token}

theorem Closes.reads (h : Closes L as ss) : Reads L as ss := fun rest _ => h rest

theorem Closes.nil : Closes L [] [] := fun rest => by simp

/-- What closes can be put in front of anything, in particular of what closes. -/
theorem Closes.append (ha : Closes L as ss) (hb : Closes L bs ts) :
    Closes L (as ++ bs) (ss ++ ts) := by
  intro rest
  rw [List.append_assoc, ha, hb, Option.map_map]
  simp [Function.comp_def]

/-- Of two pieces the first has to close, and then the second may ask for whatever it likes behind
it. -/
theorem Closes.append_reads (ha : Closes L as ss) (hb : Reads L bs ts) :
    Reads L (as ++ bs) (ss ++ ts) := by
  intro rest hrest
  rw [List.append_assoc, ha, hb rest hrest, Option.map_map]
  simp [Function.comp_def]

theorem Stops.append (h : Stops as) (hne : as ≠ []) (rest : List Char) : Stops (as ++ rest) := by
  cases as with
  | nil => exact absurd rfl hne
  | cons c as => exact h

/-- If the first piece does not close, the second has to stop it. -/
theorem Reads.append (ha : Reads L as ss) (hb : Reads L bs ts) (hstops : Stops bs) (hne : bs ≠ []) :
    Reads L (as ++ bs) (ss ++ ts) := by
  intro rest hrest
  rw [List.append_assoc, ha _ (hstops.append hne rest), hb rest hrest, Option.map_map]
  simp [Function.comp_def]

theorem Reads.append_closes (ha : Reads L as ss) (hb : Closes L bs ts) (hstops : Stops bs)
    (hne : bs ≠ []) : Closes L (as ++ bs) (ss ++ ts) := by
  intro rest
  rw [List.append_assoc, ha _ (hstops.append hne rest), hb, Option.map_map]
  simp [Function.comp_def]

theorem Reads.tokens_eq (h : Reads L as ss) : tokens L as = some ss := by
  have := h [] nofun
  rw [List.append_nil, tokens_nil] at this
  simpa using this

end Pieces

/-! ## Single tokens

One lemma for each kind of token that lowering writes. Words, numerals and signs are runs
(`tokens_run`): a run is all characters of its kind, so it needs something behind it that is not of
this kind. -/

/-- A blank stands for nothing, and the text goes on behind it. -/
theorem closes_blank {c : Char} (h : isBlank c = true) : Closes L [c] [] := by
  intro rest
  exact tokens_cons (show lexeme? L c rest = some ([], rest) by rw [lexeme?, if_pos h])

theorem isBlank_iff {c : Char} : isBlank c = true ↔ c ∈ [' ', '\t', '\n', '\r'] := by
  simp [isBlank, or_assoc]

theorem closes_mark {c : Char} {token : Token} (h : mark? c = some token) :
    Closes L [c] [token] := by
  intro rest
  have hblanks : ∀ c ∈ [' ', '\t', '\n', '\r'], mark? c = none :=
    List.all_iff_forall_prop.mp (by decide)
  have hblank : isBlank c ≠ true := by
    intro hblank
    rw [hblanks c (isBlank_iff.mp hblank)] at h
    cases h
  exact tokens_cons (show lexeme? L c rest = some ([token], rest) by rw [lexeme?, if_neg hblank, h])

/-- A run is read as one token if it ends. -/
theorem tokens_run {c : Char} {cs rest : List Char} {kind : Char → Bool}
    {read : List Char → Option Token} {token : Token} (hc : isBlank c = false)
    (hmark : mark? c = none) (hquote : c ≠ '"') (hrun : L.run? c = some (kind, read))
    (hread : read (c :: cs) = some token) (hcs : ∀ c ∈ cs, kind c = true)
    (hrest : ∀ c ∈ rest.head?, kind c = false) :
    tokens L (c :: cs ++ rest) = (tokens L rest).map ([token] ++ ·) := by
  refine tokens_cons (show lexeme? L c (cs ++ rest) = some ([token], rest) from ?_)
  rw [lexeme?, if_neg (by simp [hc]), hmark, hrun, Option.bind_some]
  simp only [hquote, if_false, takeWhile_run hcs hrest, dropWhile_run hcs hrest, hread,
    Option.map_some]

/-- A character that may be in a word is none of those that are looked for before words are. -/
theorem parts_of_inside {c : Char} (h : isOutsideWords c = false) :
    isBlank c = false ∧ mark? c = none ∧ isSign c = false ∧ c ≠ '"' := by
  simp only [isOutsideWords, Bool.or_eq_false_iff, decide_eq_false_iff_not,
    Option.isSome_eq_false_iff, Option.isNone_iff_eq_none] at h
  obtain ⟨⟨⟨⟨hblank, hmark⟩, hsign⟩, -⟩, hquote⟩ := h
  exact ⟨hblank, hmark, hsign, hquote⟩

/-- Whatever stops a token is in no word, whichever lexicon is used. -/
theorem isOutsideWords_of_stops {c : Char} (h : isBlank c = true ∨ (mark? c).isSome = true) :
    isOutsideWords c = true := by
  rcases h with h | h <;> simp [isOutsideWords, h]

theorem not_continues_of_stops {rest : List Char} (h : Stops rest) :
    ∀ c ∈ rest.head?, L.continues c = false :=
  fun c hc => L.not_continues c (isOutsideWords_of_stops (h c hc))

/-- A character that a word may start with starts nothing else. -/
theorem tokens_word {c : Char} {cs rest : List Char} {token : Token} (hc : L.starts c = true)
    (hcs : ∀ c ∈ cs, L.continues c = true) (hread : L.word? (c :: cs) = some token)
    (hrest : Stops rest) : tokens L (c :: cs ++ rest) = (tokens L rest).map ([token] ++ ·) := by
  have hinside : isOutsideWords c = false := by
    cases houtside : isOutsideWords c with
    | false => rfl
    | true => exact absurd (L.continues_of_starts c hc) (by simp [L.not_continues c houtside])
  have hdigit : c.isDigit = false := by
    cases hdigit : c.isDigit with
    | false => rfl
    | true => exact absurd hc (by simp [L.not_starts_digit c hdigit])
  obtain ⟨hblank, hmark, -, hquote⟩ := parts_of_inside hinside
  refine tokens_run hblank hmark hquote ?_ hread hcs (not_continues_of_stops hrest)
  rw [Lexicon.run?, hdigit, if_neg (by simp), if_pos hc]

/-- An identifier is read as a name: it starts as words do, goes on as words do, and is not
reserved. -/
theorem reads_identifier {name : String} (h : L.isIdentifier name = true) :
    Reads L name.toList [.name name] := by
  intro rest hrest
  unfold Lexicon.isIdentifier at h
  split at h
  · cases h
  · next c cs hname =>
    simp only [Bool.and_eq_true, Bool.not_eq_true', List.all_eq_true] at h
    have hword : String.ofList (c :: cs) = name := by rw [← hname, String.ofList_toList]
    have hkeyword : Keyword.all.find? (·.text = name) = none := by
      rw [List.find?_eq_none]
      intro k _ hk
      rw [decide_eq_true_eq] at hk
      have := L.reserved_keyword k
      rw [hk, h.2] at this
      cases this
    rw [hname]
    refine tokens_word h.1.1 h.1.2 ?_ hrest
    rw [Lexicon.word?, hword, hkeyword]
    simp [h.2]

/-- Letters make up an identifier unless they are reserved. -/
theorem isIdentifier_of_letters {name : String} (hne : name.toList ≠ [])
    (hletters : ∀ c ∈ name.toList, c.isAlpha = true) (hfree : L.reserved name = false) :
    L.isIdentifier name = true := by
  have hstarts := fun c hc => L.starts_letter c (hletters c hc)
  unfold Lexicon.isIdentifier
  split
  · next hnil => exact absurd hnil hne
  · next c cs hname =>
    rw [hname] at hstarts
    simp only [Bool.and_eq_true, Bool.not_eq_true', List.all_eq_true]
    exact ⟨⟨hstarts c List.mem_cons_self, fun c hc =>
      L.continues_of_starts c (hstarts c (List.mem_cons_of_mem _ hc))⟩, hfree⟩

/-- The two names that lowering uses of its own are identifiers in every lexicon, since they are
made of letters. -/
theorem isIdentifier_unresolved : L.isIdentifier Lowering.unresolved = true :=
  isIdentifier_of_letters (by decide)
    (List.all_iff_forall_prop.mp (by decide)) L.not_reserved_unresolved

theorem isIdentifier_tracker : L.isIdentifier Lowering.tracker = true :=
  isIdentifier_of_letters (by decide)
    (List.all_iff_forall_prop.mp (by decide)) L.not_reserved_tracker

/-- Keywords are words too, but they are looked for first. -/
theorem reads_keyword (k : Keyword) : Reads L k.text.toList [.keyword k] := by
  intro rest hrest
  have hletters : ∀ c ∈ k.text.toList, c.isAlpha = true := by
    cases k <;> exact List.all_iff_forall_prop.mp (by decide)
  have hstarts := fun c hc => L.starts_letter c (hletters c hc)
  have hword : L.word? k.text.toList = some (.keyword k) := by
    cases k <;> rfl
  cases htext : k.text.toList with
  | nil => cases k <;> cases htext
  | cons c cs =>
    rw [htext] at hstarts hword
    exact tokens_word (hstarts c List.mem_cons_self)
      (fun c hc => L.continues_of_starts c (hstarts c (List.mem_cons_of_mem _ hc))) hword hrest

/-- A run of signs is read as one token in front of anything but a sign. -/
theorem tokens_sign {cs rest : List Char} {token : Token} (hread : sign? cs = some token)
    (hsigns : ∀ c ∈ cs, c ∈ "+-*/%=>".toList) (hne : cs ≠ [])
    (hrest : ∀ c ∈ rest.head?, isSign c = false) :
    tokens L (cs ++ rest) = (tokens L rest).map ([token] ++ ·) := by
  have hplain : ∀ c ∈ "+-*/%=>".toList, isSign c = true ∧ c.isDigit = false
      ∧ isBlank c = false ∧ mark? c = none ∧ c ≠ '"' :=
    List.all_iff_forall_prop.mp (by decide)
  obtain ⟨c, cs, rfl⟩ := List.exists_cons_of_ne_nil hne
  obtain ⟨hsign, hdigit, hblank, hmark, hquote⟩ := hplain c (hsigns c List.mem_cons_self)
  have hword : L.starts c = false := by
    cases hstarts : L.starts c with
    | false => rfl
    | true =>
      have := L.not_continues c (by simp [isOutsideWords, hsign])
      rw [L.continues_of_starts c hstarts] at this
      cases this
  refine tokens_run hblank hmark hquote ?_ hread
    (fun c hc => (hplain c (hsigns c (List.mem_cons_of_mem _ hc))).1) hrest
  rw [Lexicon.run?, hdigit, hword, hsign]
  rfl

theorem not_isSign_of_stops {rest : List Char} (h : Stops rest) :
    ∀ c ∈ rest.head?, isSign c = false := by
  intro c hc
  have hsigns : ∀ c ∈ "+-*/%=<>!&|^~?:".toList, isBlank c = false ∧ (mark? c).isSome = false :=
    List.all_iff_forall_prop.mp (by decide)
  cases hsign : isSign c with
  | false => rfl
  | true =>
    obtain ⟨hblank, hmark⟩ := hsigns c (List.contains_iff_mem.mp hsign)
    rcases h c hc with hstop | hstop
    · rw [hblank] at hstop
      cases hstop
    · rw [hmark] at hstop
      cases hstop

/-- Every operator is read back from its sign. `**` is one token, because a run of signs is taken as
a whole. -/
theorem reads_operator (o : Operator) : Reads L o.scriptToken.toList [.operator o] := by
  intro rest hrest
  cases o <;>
    exact tokens_sign rfl (List.all_iff_forall_prop.mp (by decide)) (by decide)
      (not_isSign_of_stops hrest)

theorem reads_assign : Reads L ['='] [.assign] :=
  fun _ hrest => tokens_sign rfl (List.all_iff_forall_prop.mp (by decide)) (by decide)
    (not_isSign_of_stops hrest)

theorem reads_arrow : Reads L ['=', '>'] [.arrow] :=
  fun _ hrest => tokens_sign rfl (List.all_iff_forall_prop.mp (by decide)) (by decide)
    (not_isSign_of_stops hrest)

/-- A numeral starts with a digit and goes on with digits and points. -/
theorem exists_digit_of_numeralValue? {cs : List Char} {x : Double}
    (h : numeralValue? cs = some x) :
    ∃ c cs', cs = c :: cs' ∧ c.isDigit = true ∧ ∀ c ∈ cs', c.isDigit = true ∨ c = '.' := by
  unfold numeralValue? at h
  dsimp only at h
  split at h
  case isFalse => cases h
  case isTrue hwhole =>
    have hdigits : ∀ c ∈ cs.takeWhile Char.isDigit, c.isDigit = true :=
      fun c hc => List.all_eq_true.mp List.all_takeWhile c hc
    have hsplit := List.takeWhile_append_dropWhile (p := Char.isDigit) (l := cs)
    have hrest : ∀ c ∈ cs.dropWhile Char.isDigit, c.isDigit = true ∨ c = '.' := by
      split at h
      · next hnil => simp [hnil]
      · next fraction hpoint =>
        split at h
        · next hfraction =>
          simp only [Bool.and_eq_true, List.all_eq_true] at hfraction
          rw [hpoint]
          exact List.forall_mem_cons.mpr ⟨.inr rfl, fun c hc => .inl (hfraction.2 c hc)⟩
        · cases h
      · cases h
    cases htake : cs.takeWhile Char.isDigit with
    | nil =>
      rw [htake] at hwhole
      cases hwhole
    | cons c whole =>
      rw [htake] at hdigits hsplit
      refine ⟨c, whole ++ cs.dropWhile Char.isDigit, hsplit.symm, hdigits c List.mem_cons_self,
        fun d hd => (List.mem_append.mp hd).elim (fun hd => .inl ?_) (hrest d)⟩
      exact hdigits d (List.mem_cons_of_mem _ hd)

/-- Digits may be in words, but no word starts with one. -/
theorem not_isOutsideWords_of_isDigit {c : Char} (h : c.isDigit = true) :
    isOutsideWords c = false := by
  have hdigits : ∀ n < 58, 48 ≤ n → isOutsideWords (Char.ofNat n) = false := by decide
  have hbounds := Json.toNat_of_isDigit h
  rw [← Char.ofNat_toNat c]
  exact hdigits _ (by omega) hbounds.1

/-- A numeral is read up to the first character that cannot be in a word. So `1a` is one run, and no
number. -/
theorem reads_digits {cs : List Char} {x : Double} (h : numeralValue? cs = some x) :
    Reads L cs [.number x] := by
  intro rest hrest
  obtain ⟨c, cs, rfl, hc, hcs⟩ := exists_digit_of_numeralValue? h
  obtain ⟨hblank, hmark, -, hquote⟩ := parts_of_inside (not_isOutsideWords_of_isDigit hc)
  refine tokens_run hblank hmark hquote (by rw [Lexicon.run?, if_pos hc])
    (by rw [h]; rfl) (fun c hc => by rcases hcs c hc with hc | hc <;> simp [hc]) ?_
  intro d hd
  have hcontinues := not_continues_of_stops (L := L) hrest d hd
  have hdigit : d.isDigit = false := by
    cases hdigit : d.isDigit with
    | false => rfl
    | true =>
      have := not_isOutsideWords_of_isDigit hdigit
      rw [isOutsideWords_of_stops (hrest d hd)] at this
      cases this
  have hpoint : d ≠ '.' := by
    rintro rfl
    rcases hrest '.' hd with hstop | hstop <;> cases hstop
  simp [hdigit, hpoint, hcontinues]

/-- The tokens of a literal. -/
def literalTokens (x : Double) : List Token :=
  if x.isNegative then [.operator .sub, .number x.abs] else [.number x.abs]

/-- **The numeral of a finite double is read back as the double.** In front of a negative one there
is a minus, which is a token of its own. -/
theorem reads_numeral {x : Double} (hfinite : x.isFinite = true) :
    Reads L (numeral x) (literalTokens x) := by
  intro rest hrest
  obtain ⟨digits, hnumeral, hvalue⟩ := exists_numeral hfinite
  have hdigits := reads_digits (L := L) hvalue rest hrest
  rw [hnumeral, literalTokens]
  cases hnegative : x.isNegative with
  | false => exact hdigits
  | true =>
    obtain ⟨c, cs, rfl, hc, -⟩ := exists_digit_of_numeralValue? hvalue
    obtain ⟨-, -, hsign, -⟩ := parts_of_inside (not_isOutsideWords_of_isDigit hc)
    have hminus : sign? ['-'] = some (.operator .sub) := rfl
    have hread := tokens_sign (L := L) hminus (List.all_iff_forall_prop.mp (by decide)) (by decide)
      (show ∀ d ∈ (c :: cs ++ rest).head?, isSign d = false by
        rintro d ⟨⟩
        exact hsign)
    rw [hdigits, Option.map_map] at hread
    exact hread

/-- A quoted text without quotes in it. -/
theorem closes_quoted {cs : List Char} (h : ∀ c ∈ cs, c ≠ '"' ∧ c ≠ '\\' ∧ c ≠ '\n') :
    Closes L ('"' :: cs ++ ['"']) [.text cs] := by
  intro rest
  have hplain : ∀ c ∈ cs, (c ≠ '"' && c ≠ '\\' && c ≠ '\n') = true := by
    intro c hc
    simpa [and_assoc] using h c hc
  have hquote : ∀ c ∈ ('"' :: rest).head?, (c ≠ '"' && c ≠ '\\' && c ≠ '\n') = false := by
    rintro c ⟨⟩
    rfl
  have hread : quoted? (cs ++ '"' :: rest) = some (.text cs, rest) := by
    rw [quoted?]
    simp only [takeWhile_run hplain hquote, dropWhile_run hplain hquote]
  rw [List.append_assoc]
  refine tokens_cons (show lexeme? L '"' (cs ++ '"' :: rest) = some ([.text cs], rest) from ?_)
  rw [lexeme?, if_neg (by decide), hread]
  rfl

theorem toNat_lt_of_isAlphanum {c : Char} (h : c.isAlphanum = true) : c.toNat < 123 := by
  unfold Char.isAlphanum Char.isAlpha Char.isUpper Char.isLower Char.isDigit at h
  simp only [Bool.or_eq_true, Bool.and_eq_true, decide_eq_true_eq] at h
  rcases h with (h | h) | h
  · exact Nat.lt_of_le_of_lt h.2 (by decide)
  · exact Nat.lt_of_le_of_lt h.2 (by decide)
  · exact Nat.lt_of_le_of_lt h.2 (by decide)

/-- The words that are made up of the letters and digits of ASCII, the underscore and the dollar
sign, without those that are reserved in strict mode. -/
def Lexicon.ascii : Lexicon where
  starts c := c.isAlpha || c = '_' || c = '$'
  continues c := c.isAlphanum || c = '_' || c = '$'
  reserved := ["await", "break", "case", "catch", "class", "const", "continue", "debugger",
    "default", "delete", "do", "else", "enum", "export", "extends", "false", "finally", "for",
    "function", "if", "implements", "import", "in", "instanceof", "interface", "let", "new", "null",
    "package", "private", "protected", "public", "return", "static", "super", "switch", "this",
    "throw", "true", "try", "typeof", "var", "void", "while", "with", "yield"].contains
  starts_letter c h := by simp [h]
  not_starts_digit c h := by
    have hdigits : ∀ n < 58, 48 ≤ n → ((Char.ofNat n).isAlpha || Char.ofNat n = '_'
      || Char.ofNat n = '$') = false := by decide
    have hbounds := Json.toNat_of_isDigit h
    rw [← Char.ofNat_toNat c]
    exact hdigits _ (by omega) hbounds.1
  continues_of_starts c h := by
    simp only [Char.isAlphanum, Bool.or_eq_true] at h ⊢
    tauto
  not_continues c h := by
    have hascii : ∀ n < 123, ((Char.ofNat n).isAlphanum || Char.ofNat n = '_'
      || Char.ofNat n = '$') = true → isOutsideWords (Char.ofNat n) = false := by decide
    refine Bool.eq_false_iff.mpr fun hcontinues => ?_
    have hbound : c.toNat < 123 := by
      simp only [Bool.or_eq_true, decide_eq_true_eq] at hcontinues
      rcases hcontinues with (halphanum | rfl) | rfl
      · exact toNat_lt_of_isAlphanum halphanum
      · decide
      · decide
    have hinside := hascii c.toNat hbound (by rwa [Char.ofNat_toNat])
    rw [Char.ofNat_toNat, h] at hinside
    cases hinside
  reserved_keyword k := by cases k <;> decide
  not_reserved_unresolved := by decide
  not_reserved_tracker := by decide

end ArithScript.Script
