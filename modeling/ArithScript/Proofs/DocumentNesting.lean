import ArithScript.Proofs.BracketBytes
import ArithScript.Proofs.DocumentForm
import ArithScript.Proofs.Rendering
import Mathlib.Data.Bool.AllAny

/-!
# Nesting of printed documents

The brackets of a text are counted before it is read. On printed text the count is what the value
says: it never goes beyond the nesting of the value (`passes_print`), because the brackets of
strings are not counted and every bracket that is opened is closed again. And the nesting of a
document is at most twice the height of its expressions, and a little more
(`Document.nesting_toValue_le`): an expression inside another costs a bracket for itself and one for
the list of arguments it may be in. So the count never refuses a document whose expressions are of
the allowed height.
-/

set_option autoImplicit false

namespace ArithScript

open Json

/-! ## Counting brackets of printed text

A text that is counted from some depth on comes out at the same depth, if it is printed and there is
room for its nesting (`Passes`). The induction is over the value, for all depths at once. -/

variable {limit depth : Nat}

/-- The count of brackets goes over a text and comes out where it went in. -/
def Passes (limit depth : Nat) (cs : List Char) : Prop :=
  ∀ rest, nestingWithin limit .outside depth (cs ++ rest) = nestingWithin limit .outside depth rest

theorem passes_nil : Passes limit depth [] := fun _ => rfl

/-- Texts that come out at the depth where they went in can be put one behind the other. -/
theorem Passes.append {first second : List Char} (hfirst : Passes limit depth first)
    (hsecond : Passes limit depth second) : Passes limit depth (first ++ second) := by
  intro rest
  rw [List.append_assoc, hfirst, hsecond]

/-- A character that neither opens nor closes anything. -/
def isQuiet (c : Char) : Bool :=
  c ≠ '"' && c ≠ '\x7b' && c ≠ '[' && c ≠ '\x7d' && c ≠ ']'

/-- Characters that are neither brackets nor quotation marks are passed over. -/
theorem passes_quiet {cs : List Char} (h : ∀ c ∈ cs, isQuiet c = true) : Passes limit depth cs := by
  induction cs with
  | nil => exact passes_nil
  | cons c cs ih =>
    obtain ⟨hc, hcs⟩ := List.forall_mem_cons.mp h
    intro rest
    simp only [isQuiet, ne_eq, decide_not, Bool.and_eq_true, Bool.not_eq_true',
      decide_eq_false_iff_not] at hc
    obtain ⟨⟨⟨⟨hquote, hbrace⟩, hbracket⟩, hcloseBrace⟩, hcloseBracket⟩ := hc
    rw [List.cons_append, nestingWithin]
    simp only [hquote, hbrace, hbracket, hcloseBrace, hcloseBracket, decide_false, Bool.or_self,
      Bool.false_eq_true, if_false]
    exact ih hcs rest

/-- Inside a string each character is passed over with its escape, which hides a quotation mark and
a backslash. -/
theorem nestingWithin_escapeChar (c : Char) (rest : List Char) :
    nestingWithin limit .inString depth (escapeChar c ++ rest)
      = nestingWithin limit .inString depth rest := by
  unfold escapeChar
  split
  · rfl
  split
  · rfl
  split
  · rfl
  split
  · rfl
  split
  · rfl
  split
  · rfl
  split
  · rfl
  split
  · have hdigit : ∀ n, Nat.digitChar n ≠ '\\' ∧ Nat.digitChar n ≠ '"' := fun n =>
      ⟨Nat.digitChar_ne '\\' (by decide) , Nat.digitChar_ne '"' (by decide)⟩
    simp [nestingWithin, hdigit]
  · next hquote hbackslash _ _ _ _ _ _ =>
    rw [List.singleton_append, nestingWithin, if_neg hbackslash, if_neg hquote]

/-- Strings are passed over, whatever they hold. -/
theorem passes_printString (s : String) : Passes limit depth (printString s) := by
  intro rest
  rw [printString_append, nestingWithin, if_pos rfl]
  induction s.toList with
  | nil => rfl
  | cons c cs ih =>
    rw [List.flatMap_cons, List.append_assoc, nestingWithin_escapeChar]
    exact ih

/-- Commas are quiet. -/
theorem passes_intercalate {items : List (List Char)}
    (h : ∀ item ∈ items, Passes limit depth item) :
    Passes limit depth ([','].intercalate items) := by
  cases items with
  | nil => exact passes_nil
  | cons item items =>
    obtain ⟨hitem, hitems⟩ := List.forall_mem_cons.mp h
    rw [intercalate_comma]
    refine hitem.append ?_
    have hcomma : Passes limit depth [','] := fun _ => rfl
    induction items with
    | nil => exact passes_nil
    | cons next items ih =>
      obtain ⟨hnext, hitems⟩ := List.forall_mem_cons.mp hitems
      rw [List.flatMap_cons]
      refine (hcomma.append hnext).append (ih ?_ hitems)
      exact List.forall_mem_cons.mpr ⟨hitem, hitems⟩

/-- Brackets are passed over if what is in them is, one level further in. -/
theorem passes_bracketed {opening closing : Char}
    (hbrackets : opening = '[' ∧ closing = ']' ∨ opening = '\x7b' ∧ closing = '\x7d')
    {items : List (List Char)} (hdepth : depth + 1 ≤ limit)
    (h : ∀ item ∈ items, Passes limit (depth + 1) item) :
    Passes limit depth (bracketed opening closing items) := by
  intro rest
  have hopen : ¬ limit < depth + 1 := Nat.not_lt.mpr hdepth
  have hinside := passes_intercalate h (closing :: rest)
  rw [bracketed_append]
  rcases hbrackets with ⟨rfl, rfl⟩ | ⟨rfl, rfl⟩
  · simp only [nestingWithin, hopen] at hinside ⊢
    exact hinside
  · simp only [nestingWithin, hopen] at hinside ⊢
    exact hinside

theorem isQuiet_of_isDigit {c : Char} (h : c.isDigit = true) : isQuiet c = true := by
  have hrange := toNat_of_isDigit h
  have hne : ∀ special : Char, 57 < special.toNat ∨ special.toNat < 48 → c ≠ special := by
    rintro special hspecial rfl
    omega
  simp [isQuiet, hne '"' (by decide), hne '\x7b' (by decide), hne '[' (by decide),
    hne '\x7d' (by decide), hne ']' (by decide)]

theorem isQuiet_toDigits (n : Nat) : ∀ c ∈ Nat.toDigits 10 n, isQuiet c = true :=
  fun _ hc => isQuiet_of_isDigit (isDigit_of_mem_toDigits hc)

theorem isQuiet_zeros (count : Nat) : ∀ c ∈ Decimal.zeros count, isQuiet c = true := by
  intro c hc
  rw [List.eq_of_mem_replicate hc]
  decide

theorem isQuiet_positional (d : Decimal) : ∀ c ∈ d.positional, isQuiet c = true := by
  have hdigits : ∀ c ∈ d.digitChars, isQuiet c = true := isQuiet_toDigits d.digits
  have htake : ∀ n, ∀ c ∈ d.digitChars.take n, isQuiet c = true :=
    fun n c hc => hdigits c (List.mem_of_mem_take hc)
  have hdrop : ∀ n, ∀ c ∈ d.digitChars.drop n, isQuiet c = true :=
    fun n c hc => hdigits c (List.mem_of_mem_drop hc)
  unfold Decimal.positional
  dsimp only
  split
  · exact List.forall_mem_append.mpr ⟨hdigits, isQuiet_zeros _⟩
  split
  · exact List.forall_mem_append.mpr ⟨htake _, List.forall_mem_cons.mpr ⟨by decide, hdrop _⟩⟩
  · refine List.forall_mem_cons.mpr ⟨by decide, List.forall_mem_cons.mpr ⟨by decide, ?_⟩⟩
    exact List.forall_mem_append.mpr ⟨isQuiet_zeros _, hdigits⟩

theorem isQuiet_scientific (d : Decimal) : ∀ c ∈ d.scientific, isQuiet c = true := by
  have hdigits : ∀ c ∈ d.digitChars, isQuiet c = true := isQuiet_toDigits d.digits
  unfold Decimal.scientific
  refine List.forall_mem_append.mpr ⟨List.forall_mem_append.mpr ⟨?_, ?_⟩, ?_⟩
  · exact fun c hc => hdigits c (List.mem_of_mem_take hc)
  · split
    · exact nofun
    · exact List.forall_mem_cons.mpr ⟨by decide, fun c hc => hdigits c (List.mem_of_mem_drop hc)⟩
  · refine List.forall_mem_cons.mpr ⟨by decide, List.forall_mem_cons.mpr ⟨?_, isQuiet_toDigits _⟩⟩
    split <;> decide

/-- In both notations a numeral consists of digits, a point and the mark and sign of an exponent. -/
theorem isQuiet_decimalNumeral (d : Decimal) : ∀ c ∈ decimalNumeral d, isQuiet c = true := by
  unfold decimalNumeral
  split
  · split
    · exact List.forall_mem_append.mpr ⟨isQuiet_positional d,
        List.all_iff_forall_prop.mp (by decide)⟩
    · exact isQuiet_positional d
  · exact isQuiet_scientific d

/-- No number has a bracket, with a minus or without; one that is not finite is written as
`null`. -/
theorem isQuiet_realNumeral (x : Double) : ∀ c ∈ realNumeral x, isQuiet c = true := by
  have hdigits : ∀ c ∈ (if x.isZero then ['0', '.', '0'] else
      decimalNumeral (Decimal.shortest .toEven x)), isQuiet c = true := by
    split
    · exact List.all_iff_forall_prop.mp (by decide)
    · exact isQuiet_decimalNumeral _
  unfold realNumeral
  split
  · dsimp only
    split
    · exact List.forall_mem_cons.mpr ⟨by decide, hdigits⟩
    · exact hdigits
  · exact List.all_iff_forall_prop.mp (by decide)

theorem isQuiet_integerNumeral (n : Int) : ∀ c ∈ integerNumeral n, isQuiet c = true := by
  unfold integerNumeral
  split
  · exact List.forall_mem_cons.mpr ⟨by decide, isQuiet_toDigits _⟩
  · exact isQuiet_toDigits _

mutual

/-- **The count of brackets is within the nesting of a value**, from any depth on. -/
theorem passes_print : ∀ (v : Value) (depth : Nat), depth + v.nesting ≤ limit →
    Passes limit depth v.print
  | .null, _, _ => passes_quiet (List.all_iff_forall_prop.mp (by decide))
  | .boolean true, _, _ => passes_quiet (List.all_iff_forall_prop.mp (by decide))
  | .boolean false, _, _ => passes_quiet (List.all_iff_forall_prop.mp (by decide))
  | .integer n, _, _ => passes_quiet (isQuiet_integerNumeral n)
  | .real x, _, _ => passes_quiet (isQuiet_realNumeral x)
  | .string s, _, _ => passes_printString s
  | .array items, depth, h => by
    rw [Value.nesting] at h
    exact passes_bracketed (.inl ⟨rfl, rfl⟩) (by omega)
      (passes_printItems items (depth + 1) (by omega))
  | .object found, depth, h => by
    rw [Value.nesting] at h
    exact passes_bracketed (.inr ⟨rfl, rfl⟩) (by omega)
      (passes_printMembers found (depth + 1) (by omega))

/-- Items and members are printed at the depth of what is around them, and each keeps to its own
nesting. -/
theorem passes_printItems : ∀ (items : List Value) (depth : Nat),
    depth + itemsNesting items ≤ limit → ∀ text ∈ printItems items, Passes limit depth text
  | [], _, _ => nofun
  | item :: items, depth, h => by
    rw [itemsNesting] at h
    exact List.forall_mem_cons.mpr
      ⟨passes_print item depth (by omega), passes_printItems items depth (by omega)⟩

theorem passes_printMembers : ∀ (found : List (String × Value)) (depth : Nat),
    depth + membersNesting found ≤ limit → ∀ text ∈ printMembers found, Passes limit depth text
  | [], _, _ => nofun
  | (name, item) :: found, depth, h => by
    rw [membersNesting] at h
    have hcolon : Passes limit depth [':'] := fun _ => rfl
    have hmember := (passes_printString name).append
      (hcolon.append (passes_print item depth (by omega)))
    exact List.forall_mem_cons.mpr ⟨hmember, passes_printMembers found depth (by omega)⟩

end

/-! ## Nesting and height

The bounds are not sharp. They have to hold for every expression, and what counts is that the factor
is two and the rest is less than sixteen. -/

/-- A region with a range of two positions is nested three deep. -/
theorem nesting_regionValue_le (r : Option Region) : (regionValue r).nesting ≤ 3 := by
  cases r with
  | none => exact Nat.zero_le _
  | some r =>
    obtain ⟨offset, stop, range⟩ := r
    cases range <;>
      simp [regionValue, Region.toValue, Range.toValue, Position.toValue, Value.nesting,
        membersNesting]

mutual

/-- A level of an expression costs two brackets at most. -/
theorem Expr.nesting_toValue_le : ∀ e : Expr, e.toValue.nesting ≤ 2 * e.height + 3
  | .literal value region => by
    have hregion := nesting_regionValue_le region
    simp only [Expr.toValue, Value.nesting, membersNesting, regionMember, Expr.height]
    omega
  | .binary operator operatorRegion left right region => by
    have hoperatorRegion := nesting_regionValue_le operatorRegion
    have hregion := nesting_regionValue_le region
    have hleft := left.nesting_toValue_le
    have hright := right.nesting_toValue_le
    simp only [Expr.toValue, Value.nesting, membersNesting, regionMember, Expr.height]
    omega
  | .call function arguments region => by
    have hfunction := nesting_regionValue_le function.region
    have hregion := nesting_regionValue_le region
    have harguments := Expr.itemsNesting_toValues_le arguments
    simp only [Expr.toValue, Reference.toValue, Value.nesting, membersNesting, regionMember,
      Expr.height]
    omega

theorem Expr.itemsNesting_toValues_le : ∀ es : List Expr,
    itemsNesting (Expr.toValues es) ≤ 2 * Expr.maxHeight es + 3
  | [] => Nat.zero_le _
  | e :: es => by
    have he := e.nesting_toValue_le
    have hes := Expr.itemsNesting_toValues_le es
    simp only [Expr.toValues, itemsNesting, Expr.maxHeight]
    omega

end

/-- A parameter is a record with a region in it. -/
theorem itemsNesting_parameters_le (ps : List Parameter) :
    itemsNesting (ps.map Parameter.toValue) ≤ 4 := by
  induction ps with
  | nil => exact Nat.zero_le _
  | cons p ps ih =>
    have hregion := nesting_regionValue_le p.region
    simp only [List.map_cons, Parameter.toValue, itemsNesting, Value.nesting, membersNesting,
      regionMember]
    omega

/-- Either the expression of a statement is its deepest part, or it is so low that its regions
are. -/
theorem Statement.nesting_toValue_le (s : Statement) :
    s.toValue.nesting ≤ 2 * s.expression.height + 6 := by
  cases s with
  | definition d =>
    have hbody := d.body.nesting_toValue_le
    have hparameters := itemsNesting_parameters_le d.parameters
    have hnameRegion := nesting_regionValue_le d.nameRegion
    have hregion := nesting_regionValue_le d.region
    simp only [Statement.toValue, Definition.toMembers, Value.nesting, membersNesting, regionMember,
      Statement.expression]
    omega
  | evaluation e =>
    have hexpression := e.expression.nesting_toValue_le
    have hregion := nesting_regionValue_le e.region
    simp only [Statement.toValue, Evaluation.toMembers, Value.nesting, membersNesting, regionMember,
      Statement.expression]
    omega

/-- The deepest statement has the highest expression, up to what regions make of it. -/
theorem itemsNesting_statements_le (ss : List Statement) :
    itemsNesting (ss.map Statement.toValue)
      ≤ 2 * Expr.maxHeight (ss.map Statement.expression) + 6 := by
  induction ss with
  | nil => exact Nat.zero_le _
  | cons s ss ih =>
    have hs := s.nesting_toValue_le
    simp only [List.map_cons, itemsNesting, Expr.maxHeight]
    omega

/-- **The nesting of a document is bounded by the height of its expressions.** -/
theorem Document.nesting_toValue_le (d : Document) :
    d.toValue.nesting ≤ 2 * d.module.height + 16 := by
  have hstatements := itemsNesting_statements_le d.module.statements
  have hregion := nesting_regionValue_le d.module.region
  obtain ⟨sourceText, module⟩ := d
  cases sourceText <;>
    simp only [Document.toValue, Module.toValue, Value.nesting, membersNesting, regionMember,
      Module.height] at * <;>
    omega

end ArithScript
