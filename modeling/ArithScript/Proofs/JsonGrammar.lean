import ArithScript.Proofs.DocumentNesting

/-!
# The grammar of JSON text

A tree is the syntax of a JSON text without its blanks: scalars and names of members stand in it as
they are written. `Tree.Spells` is the grammar: it relates a tree to each of its texts, with any
blanks between the tokens and with any escapes in its strings, lone surrogates included.
`Tree.Denotes` says which value a tree stands for; a tree whose strings or numbers are no texts or
numbers in memory stands for none.

Counting the brackets of a text needs no grammar. It sees quotation marks, backslashes and brackets,
and nothing else. `Tree.measures_spells` says that nevertheless it measures the nesting of the tree,
on all its texts, from any depth on and in front of any text: this is what `checkNesting_of_text`
rests on.
-/

set_option autoImplicit false

namespace ArithScript

namespace Json

/-! ## Tokens

Tokens are what the grammar leaves as it is written: numerals, words and quoted strings. They are
given by rules that follow the standard; digits of any number, exponents of any size and surrogates
in any order are allowed. -/

/-- Blanks, or nothing. -/
def Blank (cs : List Char) : Prop := ∀ c ∈ cs, isSpace c = true

theorem blank_nil : Blank [] := fun _ hc => absurd hc List.not_mem_nil

/-- Digits, or nothing. -/
def Digits (cs : List Char) : Prop := ∀ c ∈ cs, (digit? c).isSome = true

/-- The whole part of a numeral: a zero, or digits of which the first is none. -/
inductive IsWhole : List Char → Prop where
  | zero {c : Char} (hc : digit? c = some 0) : IsWhole [c]
  | digits {c : Char} {n : Nat} {cs : List Char} (hc : digit? c = some n) (hn : n ≠ 0)
      (hcs : Digits cs) :
      IsWhole (c :: cs)

/-- The fraction of a numeral, if there is one. -/
inductive IsFraction : List Char → Prop where
  | absent : IsFraction []
  | digits {c : Char} {cs : List Char} (hc : (digit? c).isSome = true) (hcs : Digits cs) :
      IsFraction ('.' :: c :: cs)

/-- The exponent of a numeral, if there is one. -/
inductive IsExponent : List Char → Prop where
  | absent : IsExponent []
  | digits {e c : Char} {sign cs : List Char} (he : isExponentMark e = true)
      (hsign : sign ∈ [[], ['+'], ['-']]) (hc : (digit? c).isSome = true) (hcs : Digits cs) :
      IsExponent (e :: (sign ++ c :: cs))

/-- A numeral, without a sign. -/
inductive IsNumeral : List Char → Prop where
  | mk {whole fraction exponent : List Char} (hwhole : IsWhole whole)
      (hfraction : IsFraction fraction) (hexponent : IsExponent exponent) :
      IsNumeral (whole ++ fraction ++ exponent)

/-- Whether a character is a hexadecimal digit. -/
def isHexDigit (c : Char) : Bool := (hexDigit? c).isSome

/-- What may stand between the quotation marks of a string. -/
inductive Quoted : List Char → Prop where
  | nil : Quoted []
  | plain {c : Char} {cs : List Char} (hquote : c ≠ '"') (hbackslash : c ≠ '\\')
      (hcontrol : 0x20 ≤ c.toNat) (h : Quoted cs) : Quoted (c :: cs)
  | escape {c : Char} {cs : List Char} (hc : (simpleEscape? c).isSome = true) (h : Quoted cs) :
      Quoted ('\\' :: c :: cs)
  | unit {a b c d : Char} {cs : List Char} (hdigits : [a, b, c, d].all isHexDigit = true)
      (h : Quoted cs) :
      Quoted ('\\' :: 'u' :: a :: b :: c :: d :: cs)

/-- A text in quotation marks. -/
def quote (body : List Char) : List Char := '"' :: (body ++ ['"'])

/-- A scalar. -/
inductive IsScalar : List Char → Prop where
  | word {token : List Char} (h : token ∈ ["null".toList, "true".toList, "false".toList]) :
      IsScalar token
  | positive {numeral : List Char} (h : IsNumeral numeral) : IsScalar numeral
  | negative {numeral : List Char} (h : IsNumeral numeral) : IsScalar ('-' :: numeral)
  | string {body : List Char} (h : Quoted body) : IsScalar (quote body)

/-! ## Trees and their texts

A tree has many texts, which differ in their blanks only. In an object a name may appear more than
once, and order matters: what is made of that is not a question of grammar. -/

/-- The syntax of a JSON text without its blanks. -/
inductive Tree where
  | scalar (token : List Char)
  | array (items : List Tree)
  | object (members : List (List Char × Tree))

namespace Tree

mutual

/-- **The texts of a tree**, without blanks around them. -/
inductive Spells : Tree → List Char → Prop where
  | scalar {token : List Char} (h : IsScalar token) : Spells (.scalar token) token
  | emptyArray {blanks : List Char} (h : Blank blanks) :
      Spells (.array []) ('[' :: (blanks ++ [']']))
  | array {item : Tree} {items : List Tree} {texts : List (List Char)}
      (h : ItemsSpell (item :: items) texts) :
      Spells (.array (item :: items)) (bracketed '[' ']' texts)
  | emptyObject {blanks : List Char} (h : Blank blanks) :
      Spells (.object []) ('\x7b' :: (blanks ++ ['\x7d']))
  | object {first : List Char × Tree} {found : List (List Char × Tree)} {texts : List (List Char)}
      (h : MembersSpell (first :: found) texts) :
      Spells (.object (first :: found)) (bracketed '\x7b' '\x7d' texts)

/-- The texts of the elements of an array, each with blanks around it. -/
inductive ItemsSpell : List Tree → List (List Char) → Prop where
  | nil : ItemsSpell [] []
  | cons {item : Tree} {items : List Tree} {before text after : List Char}
      {texts : List (List Char)} (hbefore : Blank before) (hitem : item.Spells text)
      (hafter : Blank after) (hitems : ItemsSpell items texts) :
      ItemsSpell (item :: items) ((before ++ text ++ after) :: texts)

/-- The texts of the members of an object, with blanks around their names and around what is in
them. -/
inductive MembersSpell : List (List Char × Tree) → List (List Char) → Prop where
  | nil : MembersSpell [] []
  | cons {name : List Char} {item : Tree} {found : List (List Char × Tree)}
      {before behind inFront text after : List Char} {texts : List (List Char)}
      (hbefore : Blank before) (hname : Quoted name) (hbehind : Blank behind)
      (hinFront : Blank inFront) (hitem : item.Spells text) (hafter : Blank after)
      (hfound : MembersSpell found texts) :
      MembersSpell ((name, item) :: found)
        ((before ++ quote name ++ behind ++ ':' :: (inFront ++ text ++ after)) :: texts)

end

mutual

/-- How many arrays and objects of a tree lie inside one another, at the deepest place. -/
def nesting : Tree → Nat
  | .scalar _ => 0
  | .array items => 1 + itemsNesting items
  | .object found => 1 + membersNesting found

/-- The greatest nesting of some trees. -/
def itemsNesting : List Tree → Nat
  | [] => 0
  | item :: items => max item.nesting (itemsNesting items)

/-- The greatest nesting of the trees of some members. -/
def membersNesting : List (List Char × Tree) → Nat
  | [] => 0
  | (_, item) :: found => max item.nesting (membersNesting found)

end

end Tree

/-! ## Values and their texts

What a token denotes is another matter. Escapes stand for characters, surrogates have to come in
pairs, and numbers are rounded. A tree stands for a value if all of its tokens denote something. -/

/-- The UTF-16 unit that four hexadecimal digits stand for. -/
def unit? (a b c d : Char) : Option Nat := do
  return (((← hexDigit? a) * 16 + (← hexDigit? b)) * 16 + (← hexDigit? c)) * 16 + (← hexDigit? d)

/-- **What stands between quotation marks, and the text that it denotes.** A character outside the
basic plane may be given by the two units of its surrogate pair, and a surrogate by itself denotes
nothing. -/
inductive Unescapes : List Char → List Char → Prop where
  | nil : Unescapes [] []
  | plain {c : Char} {cs s : List Char} (hquote : c ≠ '"') (hbackslash : c ≠ '\\')
      (hcontrol : 0x20 ≤ c.toNat) (h : Unescapes cs s) : Unescapes (c :: cs) (c :: s)
  | escape {c e : Char} {cs s : List Char} (hc : simpleEscape? c = some e) (h : Unescapes cs s) :
      Unescapes ('\\' :: c :: cs) (e :: s)
  | unit {a b c d : Char} {n : Nat} {cs s : List Char} (hunit : unit? a b c d = some n)
      (hleading : isLeading n = false) (htrailing : isTrailing n = false) (h : Unescapes cs s) :
      Unescapes ('\\' :: 'u' :: a :: b :: c :: d :: cs) (Char.ofNat n :: s)
  | pair {a b c d a' b' c' d' : Char} {m n : Nat} {cs s : List Char}
      (hfirst : unit? a b c d = some m) (hleading : isLeading m = true)
      (hsecond : unit? a' b' c' d' = some n) (htrailing : isTrailing n = true)
      (h : Unescapes cs s) :
      Unescapes ('\\' :: 'u' :: a :: b :: c :: d :: '\\' :: 'u' :: a' :: b' :: c' :: d' :: cs)
        (pairChar m n :: s)

namespace Tree

mutual

/-- **The value that a tree stands for.** A numeral stands for what is read from it. -/
inductive Denotes : Tree → Value → Prop where
  | null : Denotes (.scalar "null".toList) .null
  | true : Denotes (.scalar "true".toList) (.boolean true)
  | false : Denotes (.scalar "false".toList) (.boolean false)
  | integer {token : List Char} {n : Int} (h : Json.scalar token = .ok (.integer n, [])) :
      Denotes (.scalar token) (.integer n)
  | real {token : List Char} {x : Double} (h : Json.scalar token = .ok (.real x, [])) :
      Denotes (.scalar token) (.real x)
  | string {body : List Char} {s : String} (h : Unescapes body s.toList) :
      Denotes (.scalar (quote body)) (.string s)
  | array {items : List Tree} {values : List Value} (h : ItemsDenote items values) :
      Denotes (.array items) (.array values)
  | object {found : List (List Char × Tree)} {values : List (String × Value)}
      (h : MembersDenote found values) : Denotes (.object found) (.object values)

/-- The values of the elements of an array. -/
inductive ItemsDenote : List Tree → List Value → Prop where
  | nil : ItemsDenote [] []
  | cons {item : Tree} {items : List Tree} {v : Value} {values : List Value}
      (hitem : item.Denotes v) (hitems : ItemsDenote items values) :
      ItemsDenote (item :: items) (v :: values)

/-- The values of the members of an object, with their names. -/
inductive MembersDenote : List (List Char × Tree) → List (String × Value) → Prop where
  | nil : MembersDenote [] []
  | cons {name : List Char} {item : Tree} {found : List (List Char × Tree)} {s : String} {v : Value}
      {values : List (String × Value)} (hname : Unescapes name s.toList) (hitem : item.Denotes v)
      (hfound : MembersDenote found values) :
      MembersDenote ((name, item) :: found) ((s, v) :: values)

end

/-- A whole text of a tree: one of its texts, with blanks around it. -/
def IsText (t : Tree) (text : List Char) : Prop :=
  ∃ before core after, Blank before ∧ t.Spells core ∧ Blank after ∧ text = before ++ core ++ after

mutual

/-- A value is nested as the tree that denotes it, by recursion over both. -/
theorem nesting_eq_of_denotes : ∀ {t : Tree} {v : Value}, t.Denotes v → t.nesting = v.nesting
  | .scalar token, _, h => by cases h <;> rfl
  | .array items, _, h => by
    cases h with
    | array h => rw [nesting, Value.nesting, itemsNesting_eq_of_denotes h]
  | .object found, _, h => by
    cases h with
    | object h => rw [nesting, Value.nesting, membersNesting_eq_of_denotes h]

theorem itemsNesting_eq_of_denotes : ∀ {ts : List Tree} {vs : List Value}, ItemsDenote ts vs →
    itemsNesting ts = Json.itemsNesting vs
  | [], _, h => by cases h; rfl
  | t :: ts, _, h => by
    cases h with
    | cons hitem hitems =>
      rw [itemsNesting, Json.itemsNesting, nesting_eq_of_denotes hitem,
        itemsNesting_eq_of_denotes hitems]

theorem membersNesting_eq_of_denotes : ∀ {ts : List (List Char × Tree)}
    {vs : List (String × Value)}, MembersDenote ts vs → membersNesting ts = Json.membersNesting vs
  | [], _, h => by cases h; rfl
  | (name, t) :: ts, _, h => by
    cases h with
    | cons _ hitem hfound =>
      rw [membersNesting, Json.membersNesting, nesting_eq_of_denotes hitem,
        membersNesting_eq_of_denotes hfound]

end

end Tree

/-- A text of a value: a text of a tree that stands for it. -/
def Value.IsText (v : Value) (text : List Char) : Prop := ∃ t : Tree, t.Denotes v ∧ t.IsText text

end Json

open Json

/-! ## Counting the brackets of a text

The count is over characters. To say what it does on a text of the grammar is to say that inside
strings it sees no brackets, and that outside of them those that it sees are matched. `Measures`
says both at once, of a text from a given depth on: the count stops if the nesting is too much, and
comes out where it went in otherwise. -/

section Counting

variable {limit depth : Nat}

theorem isQuiet_of_isSpace {c : Char} (h : isSpace c = true) : isQuiet c = true := by
  unfold isSpace at h
  simp only [Bool.or_eq_true, decide_eq_true_eq] at h
  rcases h with ((rfl | rfl) | rfl) | rfl <;> decide

theorem isQuiet_of_digit? {c : Char} (h : (digit? c).isSome = true) : isQuiet c = true := by
  refine isQuiet_of_isDigit ?_
  unfold digit? at h
  split at h
  · next hrange => exact Bool.and_eq_true_iff.mpr ⟨decide_eq_true hrange.1, decide_eq_true hrange.2⟩
  · cases h

theorem passes_blank {cs : List Char} (h : Blank cs) : Passes limit depth cs :=
  passes_quiet fun c hc => isQuiet_of_isSpace (h c hc)

/-- A numeral has no quotation marks and no brackets. -/
theorem isQuiet_numeral {cs : List Char} (h : IsNumeral cs) : ∀ c ∈ cs, isQuiet c = true := by
  have hdigits {cs : List Char} (hcs : Digits cs) : ∀ c ∈ cs, isQuiet c = true :=
    fun c hc => isQuiet_of_digit? (hcs c hc)
  have hdigit {c : Char} {n : Nat} (hc : digit? c = some n) : isQuiet c = true :=
    isQuiet_of_digit? (by rw [hc]; rfl)
  -- the three parts of a numeral are digits but for the point, the mark and the sign
  obtain ⟨hwhole, hfraction, hexponent⟩ := h
  refine List.forall_mem_append.mpr ⟨List.forall_mem_append.mpr ⟨?_, ?_⟩, ?_⟩
  · cases hwhole with
    | zero hc => exact List.forall_mem_cons.mpr ⟨hdigit hc, nofun⟩
    | digits hc _ hcs => exact List.forall_mem_cons.mpr ⟨hdigit hc, hdigits hcs⟩
  · cases hfraction with
    | absent => exact nofun
    | digits hc hcs =>
      exact List.forall_mem_cons.mpr ⟨by decide, List.forall_mem_cons.mpr
        ⟨isQuiet_of_digit? hc, hdigits hcs⟩⟩
  · cases hexponent with
    | absent => exact nofun
    | @digits e c sign cs he hsign hc hcs =>
      have hmark : isQuiet e = true := by
        unfold isExponentMark at he
        simp only [Bool.or_eq_true, decide_eq_true_eq] at he
        rcases he with rfl | rfl <;> decide
      have hquiet : ∀ c ∈ sign, isQuiet c = true := by
        simp only [List.mem_cons, List.not_mem_nil, or_false] at hsign
        rcases hsign with rfl | rfl | rfl
        · exact nofun
        · exact List.all_iff_forall_prop.mp (by decide)
        · exact List.all_iff_forall_prop.mp (by decide)
      exact List.forall_mem_cons.mpr ⟨hmark, List.forall_mem_append.mpr
        ⟨hquiet, List.forall_mem_cons.mpr ⟨isQuiet_of_digit? hc, hdigits hcs⟩⟩⟩

theorem ne_of_isHexDigit {c : Char} (h : isHexDigit c = true) : c ≠ '\\' ∧ c ≠ '"' := by
  constructor <;> rintro rfl <;> revert h <;> decide

/-- Between its quotation marks a string may hold brackets, and escaped quotation marks and
backslashes in any runs. -/
theorem nestingWithin_quoted {body : List Char} (h : Quoted body) (rest : List Char) :
    nestingWithin limit .inString depth (body ++ rest)
      = nestingWithin limit .inString depth rest := by
  induction h with
  | nil => rfl
  | plain hquote hbackslash _ _ ih =>
    rw [List.cons_append, nestingWithin, if_neg hbackslash, if_neg hquote]
    exact ih
  | escape _ _ ih => exact ih
  -- The letter `u` is what the backslash hides, and the digits are neither backslashes nor
  -- quotation marks.
  | @unit a b c d cs hdigits _ ih =>
    simp only [List.all_cons, List.all_nil, Bool.and_true, Bool.and_eq_true] at hdigits
    obtain ⟨ha, hb, hc, hd⟩ := hdigits
    simp only [List.cons_append, nestingWithin, ne_of_isHexDigit ha, ne_of_isHexDigit hb,
      ne_of_isHexDigit hc, ne_of_isHexDigit hd, if_true, if_false]
    exact ih

/-- A string is entered and left by its quotation marks, at the depth where it stands. -/
theorem passes_quote {body : List Char} (h : Quoted body) : Passes limit depth (quote body) := by
  intro rest
  have hquote : quote body ++ rest = '"' :: (body ++ '"' :: rest) := by simp [quote]
  rw [hquote, nestingWithin, if_pos rfl, nestingWithin_quoted h]
  rfl

/-- So scalars pass, with whatever brackets their strings hold. -/
theorem passes_scalar {token : List Char} (h : IsScalar token) : Passes limit depth token := by
  cases h with
  | word h =>
    simp only [List.mem_cons, List.not_mem_nil, or_false] at h
    rcases h with rfl | rfl | rfl <;> exact passes_quiet (List.all_iff_forall_prop.mp (by decide))
  | positive h => exact passes_quiet (isQuiet_numeral h)
  | negative h => exact passes_quiet (List.forall_mem_cons.mpr ⟨by decide, isQuiet_numeral h⟩)
  | string h => exact passes_quote h

/-- The count of brackets goes over a text with so much nesting: it stops if that is too much from
the given depth on, and comes out where it went in otherwise. -/
def Measures (limit depth nesting : Nat) (cs : List Char) : Prop :=
  ∀ rest, nestingWithin limit .outside depth (cs ++ rest)
    = (decide (depth + nesting ≤ limit) && nestingWithin limit .outside depth rest)

theorem Passes.measures {cs : List Char} (h : Passes limit depth cs) (hdepth : depth ≤ limit) :
    Measures limit depth 0 cs := by
  intro rest
  rw [h, Nat.add_zero, decide_eq_true hdepth, Bool.true_and]

theorem Measures.append {m n : Nat} {first second : List Char}
    (hfirst : Measures limit depth m first) (hsecond : Measures limit depth n second) :
    Measures limit depth (max m n) (first ++ second) := by
  intro rest
  have hboth : decide (depth + max m n ≤ limit)
      = (decide (depth + m ≤ limit) && decide (depth + n ≤ limit)) := by
    rw [← Bool.decide_and]
    exact decide_eq_decide.mpr (by omega)
  rw [List.append_assoc, hfirst, hsecond, hboth, Bool.and_assoc]

/-- What passes may stand around a text without making it any deeper. -/
theorem Measures.between {n : Nat} {before text after : List Char} (h : Measures limit depth n text)
    (hbefore : Passes limit depth before) (hafter : Passes limit depth after) :
    Measures limit depth n (before ++ text ++ after) := by
  intro rest
  rw [List.append_assoc, List.append_assoc, hbefore, h, hafter]

/-- An opening bracket is counted at once, and refused where there is no room for it. -/
theorem nestingWithin_opening {opening : Char} (h : opening = '[' ∨ opening = '\x7b')
    (cs : List Char) :
    nestingWithin limit .outside depth (opening :: cs)
      = (decide (depth + 1 ≤ limit) && nestingWithin limit .outside (depth + 1) cs) := by
  by_cases hdepth : depth + 1 ≤ limit
  · have hnot : ¬ limit < depth + 1 := Nat.not_lt.mpr hdepth
    rcases h with rfl | rfl <;> simp [nestingWithin, hdepth, hnot]
  · have hlt : limit < depth + 1 := Nat.lt_of_not_le hdepth
    rcases h with rfl | rfl <;> simp [nestingWithin, hdepth, hlt]

/-- Brackets add one to the nesting of what is in them. -/
theorem Measures.brackets {opening closing : Char}
    (hbrackets : opening = '[' ∧ closing = ']' ∨ opening = '\x7b' ∧ closing = '\x7d') {n : Nat}
    {body : List Char} (h : depth + 1 ≤ limit → Measures limit (depth + 1) n body) :
    Measures limit depth (1 + n) (opening :: (body ++ [closing])) := by
  intro rest
  have hopen : opening = '[' ∨ opening = '\x7b' := hbrackets.imp And.left And.left
  have hclose (cs : List Char) : nestingWithin limit .outside (depth + 1) (closing :: cs)
      = nestingWithin limit .outside depth cs := by
    rcases hbrackets with ⟨-, rfl⟩ | ⟨-, rfl⟩ <;> simp [nestingWithin]
  rw [List.cons_append, List.append_assoc, List.singleton_append, nestingWithin_opening hopen]
  -- Beyond the limit nothing is known of the body, and the count does not get there.
  by_cases hdepth : depth + 1 ≤ limit
  · rw [h hdepth, hclose, decide_eq_true hdepth, Bool.true_and, ← Nat.add_assoc]
  · rw [decide_eq_false hdepth, Bool.false_and, decide_eq_false (by omega), Bool.false_and]

/-- Texts with commas between them are what follows the first of as many commas. -/
theorem comma_cons_intercalate {texts : List (List Char)} (h : texts ≠ []) :
    ',' :: [','].intercalate texts = texts.flatMap (',' :: ·) := by
  cases texts with
  | nil => exact absurd rfl h
  | cons text texts => rw [intercalate_comma, List.flatMap_cons, List.cons_append]

/-- Items in brackets are one deeper. The comma in front of the first one is not there, but it would
make no difference. -/
theorem Measures.bracketed {opening closing : Char}
    (hbrackets : opening = '[' ∧ closing = ']' ∨ opening = '\x7b' ∧ closing = '\x7d') {n : Nat}
    {texts : List (List Char)} (hne : texts ≠ [])
    (h : depth + 1 ≤ limit → Measures limit (depth + 1) n (texts.flatMap (',' :: ·))) :
    Measures limit depth (1 + n) (bracketed opening closing texts) := by
  refine Measures.brackets hbrackets fun hdepth rest => ?_
  have hcommas := h hdepth rest
  rw [← comma_cons_intercalate hne] at hcommas
  exact hcommas

namespace Json.Tree

mutual

/-- **The count of brackets measures the nesting of a tree**, on every text of it. -/
theorem measures_spells : ∀ {t : Tree} {cs : List Char} {depth : Nat}, t.Spells cs → depth ≤ limit →
    Measures limit depth t.nesting cs
  | .scalar token, _, depth, h, hdepth => by
    cases h with
    | scalar h => exact (passes_scalar h).measures hdepth
  | .array items, _, depth, h, hdepth => by
    cases h with
    | emptyArray h => exact .brackets (.inl ⟨rfl, rfl⟩) (passes_blank h).measures
    | array h =>
      refine .bracketed (.inl ⟨rfl, rfl⟩) ?_ (measures_items h)
      cases h
      exact List.cons_ne_nil _ _
  | .object found, _, depth, h, hdepth => by
    cases h with
    | emptyObject h => exact .brackets (.inr ⟨rfl, rfl⟩) (passes_blank h).measures
    | object h =>
      refine .bracketed (.inr ⟨rfl, rfl⟩) ?_ (measures_members h)
      cases h
      exact List.cons_ne_nil _ _

/-- Each item with a comma in front is measured by itself. -/
theorem measures_items : ∀ {ts : List Tree} {texts : List (List Char)} {depth : Nat},
    ItemsSpell ts texts → depth ≤ limit →
    Measures limit depth (itemsNesting ts) (texts.flatMap (',' :: ·))
  | [], _, depth, h, hdepth => by
    cases h
    exact passes_nil.measures hdepth
  | t :: ts, _, depth, h, hdepth => by
    cases h with
    | cons hbefore hitem hafter hitems =>
      have hcomma : Passes limit depth [','] := fun _ => rfl
      have hfirst := (measures_spells hitem hdepth).between
        (hcomma.append (passes_blank hbefore)) (passes_blank hafter)
      simpa [itemsNesting] using hfirst.append (measures_items hitems hdepth)

theorem measures_members : ∀ {ts : List (List Char × Tree)} {texts : List (List Char)}
    {depth : Nat}, MembersSpell ts texts → depth ≤ limit →
    Measures limit depth (membersNesting ts) (texts.flatMap (',' :: ·))
  | [], _, depth, h, hdepth => by
    cases h
    exact passes_nil.measures hdepth
  | (name, t) :: ts, _, depth, h, hdepth => by
    cases h with
    | cons hbefore hname hbehind hinFront hitem hafter hfound =>
      have hcomma : Passes limit depth [','] := fun _ => rfl
      have hcolon : Passes limit depth [':'] := fun _ => rfl
      have hlabel := (hcomma.append (passes_blank hbefore)).append ((passes_quote hname).append
        ((passes_blank hbehind).append (hcolon.append (passes_blank hinFront))))
      have hfirst := (measures_spells hitem hdepth).between hlabel (passes_blank hafter)
      simpa [membersNesting] using hfirst.append (measures_members hfound hdepth)

end

/-- **The check of a text compares the nesting of its tree with the limit.** -/
theorem checkNesting_eq {t : Tree} {text : List Char} (h : t.IsText text) (maxDepth : Nat) :
    checkNesting text maxDepth
      = if t.nesting ≤ nestingLimit maxDepth then .ok () else .error ⟨maxDepth⟩ := by
  obtain ⟨before, core, after, hbefore, hcore, hafter, rfl⟩ := h
  have hcount := (measures_spells hcore (Nat.zero_le (nestingLimit maxDepth))).between
    (passes_blank hbefore) (passes_blank hafter) []
  rw [List.append_nil, Nat.zero_add, nestingWithin, Bool.and_true] at hcount
  rw [checkNesting_eq_ite, hcount]
  by_cases hnesting : t.nesting ≤ nestingLimit maxDepth <;> simp [hnesting]

end Json.Tree

end Counting

/-- **The check measures the nesting of values.** Whichever text of a value is checked, with any
blanks and with any escapes, it passes if the nesting of the value is at most twice the allowed
height of expressions and sixteen more, cut down to 64 bits, and it is refused with the allowed
height otherwise. The same holds of the trees that stand for no value. -/
theorem checkNesting_of_text :
    (∀ (v : Value) (text : List Char) (maxDepth : Nat), v.IsText text →
      checkNesting text maxDepth
        = if v.nesting ≤ min (2 * maxDepth + 16) maxNesting then .ok () else .error ⟨maxDepth⟩)
    ∧ ∀ (t : Tree) (text : List Char) (maxDepth : Nat), t.IsText text →
      checkNesting text maxDepth
        = if t.nesting ≤ min (2 * maxDepth + 16) maxNesting then .ok () else .error ⟨maxDepth⟩ := by
  refine ⟨fun v text maxDepth h => ?_, fun t text maxDepth h => Tree.checkNesting_eq h maxDepth⟩
  obtain ⟨t, hdenotes, htext⟩ := h
  rw [← Tree.nesting_eq_of_denotes hdenotes]
  exact Tree.checkNesting_eq htext maxDepth

/-- A bracket, a quotation mark and a backslash, escaped in three ways. -/
def escapedMarks : List Char := "\\u005b\\\"\\\\".toList

/-- A string of these, in so many arrays. -/
def wrappedMarks : Nat → Value
  | 0 => .string "[\"\\"
  | n + 1 => .array [wrappedMarks n]

/-- The syntax of a text of it. -/
def wrappedTree : Nat → Tree
  | 0 => .scalar (quote escapedMarks)
  | n + 1 => .array [wrappedTree n]

/-- A text of it, with blanks. -/
def wrappedText : Nat → List Char
  | 0 => quote escapedMarks
  | n + 1 => bracketed '[' ']' [[' ', '\n'] ++ wrappedText n ++ ['\t']]

/-- Arrays around a string of marks that look like brackets, written with escapes. -/
theorem denotes_wrappedTree (n : Nat) : (wrappedTree n).Denotes (wrappedMarks n) := by
  induction n with
  | zero =>
    exact .string (.unit (n := 0x5b) (by decide) (by decide) (by decide)
      (.escape (by decide) (.escape (by decide) .nil)))
  | succ n ih => exact .array (.cons ih .nil)

theorem spells_wrappedTree (n : Nat) : (wrappedTree n).Spells (wrappedText n) := by
  induction n with
  | zero =>
    exact .scalar (.string (.unit (by decide) (.escape (by decide) (.escape (by decide) .nil))))
  | succ n ih =>
    exact .array (.cons (List.all_iff_forall_prop.mp (by decide)) ih
      (List.all_iff_forall_prop.mp (by decide)) .nil)

theorem isText_wrappedText (n : Nat) : (wrappedMarks n).IsText (wrappedText n) :=
  ⟨wrappedTree n, denotes_wrappedTree n, [], wrappedText n, [], blank_nil,
    spells_wrappedTree n, blank_nil, by simp⟩

/-- Sixteen arrays are allowed where no expression is, and seventeen are not. -/
theorem checkNesting_of_text_wrapped :
    (wrappedMarks 17).nesting = 17 ∧ checkNesting (wrappedText 16) 0 = .ok ()
      ∧ checkNesting (wrappedText 17) 0 = .error ⟨0⟩ := by
  have hcheck (n : Nat) := checkNesting_of_text.1 _ _ 0 (isText_wrappedText n)
  refine ⟨by decide, ?_, ?_⟩
  · rw [hcheck 16, if_pos (by decide)]
  · rw [hcheck 17, if_neg (by decide)]

end ArithScript
