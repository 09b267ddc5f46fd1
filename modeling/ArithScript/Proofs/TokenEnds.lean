import ArithScript.Proofs.JsonScan
import ArithScript.Proofs.JsonTokens

/-!
# What a token is does not depend on what follows

A scanner is given all the text that is left, and has to find the end of a token by itself. Strings
say where they end. Numbers do not, but in a text of the grammar they are followed by blanks, a
comma, a closing bracket or nothing (`Ends`), and none of these goes on a number. So each token has
one meaning, whatever text it stands in: `Settled` says that a scanner comes to the same result in
front of any such text, and leaves that text, or else that it fails in front of all of them.

Passing over tokens never fails (`skipScalar_append`), because the scanner that does so asks for the
form of the token and nothing else.
-/

set_option autoImplicit false

namespace ArithScript.Json

variable {α β : Type}

/-- What may follow a value in a text. -/
def Ends (rest : List Char) : Prop :=
  ∀ c ∈ rest.head?, isSpace c = true ∨ c = ',' ∨ c = ']' ∨ c = '\x7d'

theorem ends_nil : Ends [] := by
  intro c hc
  cases hc

theorem ends_cons {c : Char} (h : isSpace c = true ∨ c = ',' ∨ c = ']' ∨ c = '\x7d')
    (rest : List Char) :
    Ends (c :: rest) := by
  intro d hd
  cases hd
  exact h

/-- Blanks end a token, and without blanks what comes next has to. -/
theorem Blank.ends_append {blanks rest : List Char} (h : Blank blanks) (hrest : Ends rest) :
    Ends (blanks ++ rest) := by
  cases blanks with
  | nil => exact hrest
  | cons c blanks => exact ends_cons (.inl (h c List.mem_cons_self)) _

theorem Blank.ends {blanks : List Char} (h : Blank blanks) : Ends blanks := by
  rw [← List.append_nil blanks]
  exact h.ends_append ends_nil

/-- What ends a token is no digit, no point and no mark of an exponent, and a number goes on with
nothing else. -/
theorem Ends.not_goesOn {c : Char} {rest : List Char} (h : Ends (c :: rest)) :
    digit? c = none ∧ c ≠ '.' ∧ isExponentMark c = false := by
  have hspace : isSpace c = true → c = ' ' ∨ c = '\n' ∨ c = '\r' ∨ c = '\t' := by
    intro hc
    simpa [isSpace, or_assoc] using hc
  rcases h c rfl with hc | rfl | rfl | rfl
  · rcases hspace hc with rfl | rfl | rfl | rfl <;> decide
  all_goals decide

theorem Ends.startsWithDigit {rest : List Char} (h : Ends rest) : startsWithDigit rest = false := by
  cases rest with
  | nil => rfl
  | cons c rest =>
    rw [Json.startsWithDigit, h.not_goesOn.1]
    rfl

/-- **A scanner comes to the same result in front of all texts of a kind**, and leaves them, or it
fails in front of all of them. -/
def Settled (P : List Char → Prop) (scan : List Char → Reading α) : Prop :=
  ∃ x : Option α, ∀ rest, P rest → (scan rest).toOption = x.map (·, rest)

namespace Settled

variable {P : List Char → Prop} {scan : List Char → Reading α}

theorem congr {scan' : List Char → Reading α} (h : Settled P scan)
    (heq : ∀ rest, P rest → scan' rest = scan rest) : Settled P scan' := by
  obtain ⟨x, hx⟩ := h
  exact ⟨x, fun rest hrest => by rw [heq rest hrest, hx rest hrest]⟩

theorem map (h : Settled P scan) (f : α → β) :
    Settled P fun rest => (scan rest).map fun r => (f r.1, r.2) := by
  obtain ⟨x, hx⟩ := h
  refine ⟨x.map f, fun rest hrest => ?_⟩
  dsimp only
  rw [toOption_map, hx rest hrest, Option.map_map, Option.map_map]
  rfl

theorem mono {Q : List Char → Prop} (h : Settled P scan) (hQ : ∀ rest, Q rest → P rest) :
    Settled Q scan := by
  obtain ⟨x, hx⟩ := h
  exact ⟨x, fun rest hrest => hx rest (hQ rest hrest)⟩

/-- The result is the one in front of nothing. -/
theorem toOption_eq (h : Settled P scan) (hnil : P []) {rest : List Char} (hrest : P rest) :
    (scan rest).toOption = ((scan []).toOption.map Prod.fst).map (·, rest) := by
  obtain ⟨x, hx⟩ := h
  rw [hx rest hrest, hx [] hnil, Option.map_map]
  cases x <;> rfl

theorem of_ok {x : α} (h : ∀ rest, P rest → scan rest = .ok (x, rest)) : Settled P scan :=
  ⟨some x, fun rest hrest => by rw [h rest hrest]; rfl⟩

theorem of_error (h : ∀ rest, P rest → ∃ failure, scan rest = .error failure) : Settled P scan := by
  refine ⟨none, fun rest hrest => ?_⟩
  obtain ⟨failure, hfailure⟩ := h rest hrest
  rw [hfailure]
  rfl

end Settled

/-! ## Strings

The reader of strings is a machine with a state for each place inside an escape. For a body of the
grammar it comes back to its first state at the quotation mark, or it has failed before, on a
surrogate that stands alone. -/

/-- A string is passed over up to its quotation mark, and nothing behind that is looked at. -/
theorem skipString_append {body : List Char} (h : Quoted body) (rest : List Char) :
    skipString .plain (body ++ '"' :: rest) = .ok rest := by
  induction h with
  | nil => rfl
  | @plain c cs hquote hbackslash hcontrol _ ih =>
    rw [List.cons_append, skipString, if_neg hquote, if_neg hbackslash,
      if_neg (Nat.not_lt.mpr hcontrol)]
    exact ih
  | @escape c cs hc _ ih =>
    obtain ⟨e, he⟩ := Option.isSome_iff_exists.mp hc
    have hu : c ≠ 'u' := by
      rintro rfl
      cases he
    show skipString .escape (c :: (cs ++ '"' :: rest)) = .ok rest
    rw [skipString, if_neg hu, he]
    exact ih
  | @unit a b c d cs hdigits _ ih =>
    simp only [List.all_cons, List.all_nil, Bool.and_true, Bool.and_eq_true, isHexDigit,
      Option.isSome_iff_exists] at hdigits
    obtain ⟨⟨m, hm⟩, ⟨n, hn⟩, ⟨k, hk⟩, ⟨l, hl⟩⟩ := hdigits
    show skipString (.hex 0) (a :: b :: c :: d :: (cs ++ '"' :: rest)) = .ok rest
    simp only [skipString, hm, hn, hk, hl]
    exact ih

/-- The number that four hexadecimal digits are read as. -/
theorem exists_unit {a b c d : Char} (h : [a, b, c, d].all isHexDigit = true) :
    ∃ unit : Nat, ∀ read cs,
      (∀ leading, characters (.hex (some leading) 0 0) read (a :: b :: c :: d :: cs)
        = if isTrailing unit then characters .plain (pairChar leading unit :: read) cs
          else failHere .loneSurrogate cs)
      ∧ characters (.hex none 0 0) read (a :: b :: c :: d :: cs)
        = if isTrailing unit then failHere .loneSurrogate cs
          else if isLeading unit then characters (.pair unit) read cs
          else characters .plain (Char.ofNat unit :: read) cs := by
  simp only [List.all_cons, List.all_nil, Bool.and_true, Bool.and_eq_true, isHexDigit,
    Option.isSome_iff_exists] at h
  obtain ⟨⟨m, hm⟩, ⟨n, hn⟩, ⟨k, hk⟩, ⟨l, hl⟩⟩ := h
  refine ⟨(((0 * 16 + m) * 16 + n) * 16 + k) * 16 + l, fun read cs => ⟨fun leading => ?_, ?_⟩⟩
  · simp only [characters, hm, hn, hk, hl]
    rfl
  · simp only [characters, hm, hn, hk, hl]
    rfl

section Unit

variable {a b c d : Char} {cs : List Char} (hdigits : [a, b, c, d].all isHexDigit = true)
  (hplain : ∀ read, Settled (fun _ => True)
    (fun rest => characters .plain read (cs ++ '"' :: rest)))
include hdigits hplain

/-- A unit by itself is a character, or the first half of a surrogate pair. -/
theorem settled_unit
    (hpair : ∀ read leading,
      Settled (fun _ => True) (fun rest => characters (.pair leading) read (cs ++ '"' :: rest)))
    (read : List Char) :
    Settled (fun _ => True)
      (fun rest => characters .plain read
        ('\\' :: 'u' :: a :: b :: c :: d :: cs ++ '"' :: rest)) := by
  obtain ⟨unit, hunit⟩ := exists_unit hdigits
  have hread (rest : List Char) :
      characters .plain read ('\\' :: 'u' :: a :: b :: c :: d :: cs ++ '"' :: rest)
        = characters (.hex none 0 0) read (a :: b :: c :: d :: (cs ++ '"' :: rest)) := rfl
  by_cases htrailing : isTrailing unit = true
  · refine .of_error fun rest _ => ?_
    rw [hread, (hunit _ _).2, if_pos htrailing]
    exact ⟨_, rfl⟩
  · by_cases hleading : isLeading unit = true
    · refine (hpair read unit).congr fun rest _ => ?_
      rw [hread, (hunit _ _).2, if_neg htrailing, if_pos hleading]
    · refine (hplain (Char.ofNat unit :: read)).congr fun rest _ => ?_
      rw [hread, (hunit _ _).2, if_neg htrailing, if_neg hleading]

/-- Behind the first half of a surrogate pair, a unit is the other half. -/
theorem settled_secondUnit (read : List Char) (leading : Nat) :
    Settled (fun _ => True)
      (fun rest => characters (.pair leading) read
        ('\\' :: 'u' :: a :: b :: c :: d :: cs ++ '"' :: rest)) := by
  obtain ⟨unit, hunit⟩ := exists_unit hdigits
  have hread (rest : List Char) :
      characters (.pair leading) read ('\\' :: 'u' :: a :: b :: c :: d :: cs ++ '"' :: rest)
        = characters (.hex (some leading) 0 0) read (a :: b :: c :: d :: (cs ++ '"' :: rest)) := rfl
  by_cases htrailing : isTrailing unit = true
  · refine (hplain (pairChar leading unit :: read)).congr fun rest _ => ?_
    rw [hread, (hunit _ _).1, if_pos htrailing]
  · refine .of_error fun rest _ => ?_
    rw [hread, (hunit _ _).1, if_neg htrailing]
    exact ⟨_, rfl⟩

end Unit

/-- **What a string is read as** does not depend on what follows it. The machine has to be followed
from the middle of a surrogate pair as well, where the rest of a string may begin. -/
theorem settled_characters {body : List Char} (h : Quoted body) (read : List Char) :
    Settled (fun _ => True) (fun rest => characters .plain read (body ++ '"' :: rest))
      ∧ ∀ leading, Settled (fun _ => True)
          (fun rest => characters (.pair leading) read (body ++ '"' :: rest)) := by
  -- the induction is on the quoted text; behind the first half of a pair only a unit may follow
  induction h generalizing read with
  | nil => exact ⟨.of_ok fun rest _ => rfl, fun leading => .of_error fun rest _ => ⟨_, rfl⟩⟩
  | @plain c cs hquote hbackslash hcontrol _ ih =>
    refine ⟨(ih (c :: read)).1.congr fun rest _ => ?_, fun leading => .of_error fun rest _ => ?_⟩
    · rw [List.cons_append, characters, if_neg hquote, if_neg hbackslash,
        if_neg (Nat.not_lt.mpr hcontrol)]
    · rw [List.cons_append, characters, if_neg hbackslash]
      exact ⟨_, rfl⟩
  | @escape c cs hc _ ih =>
    obtain ⟨e, he⟩ := Option.isSome_iff_exists.mp hc
    have hu : c ≠ 'u' := by
      rintro rfl
      cases he
    refine ⟨(ih (e :: read)).1.congr fun rest _ => ?_, fun leading => .of_error fun rest _ => ?_⟩
    · show characters .escape read (c :: (cs ++ '"' :: rest)) = _
      rw [characters, if_neg hu, he]
    · show ∃ failure, characters (.pairEscape leading) read (c :: (cs ++ '"' :: rest)) = _
      rw [characters, if_neg hu]
      exact ⟨_, rfl⟩
  | unit hdigits _ ih =>
    have hplain (read : List Char) := (ih read).1
    exact ⟨settled_unit hdigits hplain (fun read => (ih read).2) read,
      settled_secondUnit hdigits hplain read⟩

/-- Whether the escapes of a string denote a text is settled by the string. -/
theorem settled_string {body : List Char} (h : Quoted body) :
    Settled (fun _ => True) (fun rest => string (body ++ '"' :: rest)) :=
  (settled_characters h []).1.map String.ofList

/-! ## Numbers

The reader of numbers goes from the whole part to the fraction and on to the exponent, and each of
these decides by the next character whether it is at an end. The lemmas go the same way from the end
of a numeral to its start. -/

section Numbers

variable (negative : Bool)

/-- A number that is out of range fails, and nothing behind it could save it. -/
theorem settled_realNumber (significand : Nat) (exponent : Int) :
    Settled Ends (realNumber negative significand exponent) := by
  unfold realNumber
  cases scale? significand exponent with
  | some x => exact .of_ok fun rest _ => rfl
  | none => exact .of_error fun rest _ => ⟨_, rfl⟩

/-- A number without a fraction and an exponent is settled when its digits are at an end. -/
theorem settled_wholePart (significand dropped : Nat) :
    Settled Ends (wholePart negative significand dropped) := by
  unfold wholePart
  by_cases hdropped : dropped = 0
  · simp only [hdropped, if_true]
    exact .of_ok fun rest _ => rfl
  · simp only [hdropped, if_false]
    exact settled_realNumber negative significand dropped

theorem skipDigits_eq_nil {cs : List Char} (h : Digits cs) : skipDigits cs = [] := by
  induction cs with
  | nil => rfl
  | cons c cs ih =>
    obtain ⟨hc, hcs⟩ := List.forall_mem_cons.mp h
    rw [skipDigits_cons hc]
    exact ih hcs

/-- The digits of an exponent are added up as far as they go, and too great an exponent is decided
on without looking further. -/
theorem settled_exponentValue {c : Char} {cs : List Char} (hc : (digit? c).isSome = true)
    (hcs : Digits cs) (significand : Nat) (exponent : Int) (shrinks : Bool) :
    Settled Ends
      (fun rest => exponentValue negative significand exponent shrinks (c :: cs ++ rest)) := by
  obtain ⟨d, hd⟩ := Option.isSome_iff_exists.mp hc
  obtain ⟨hall, hsome⟩ := exponentDigits_rest d cs
  rw [skipDigits_eq_nil hcs] at hall hsome
  rcases hscan : exponentDigits d cs with ⟨_ | written, left⟩
  · -- too large an exponent fails, or its other digits are passed over
    rw [hscan] at hall
    have hread (rest : List Char) (hrest : Ends rest) :
        exponentValue negative significand exponent shrinks (c :: cs ++ rest)
          = if significand ≠ 0 ∧ !shrinks then failHere .numberOutOfRange (left ++ rest)
            else .ok (.real (signed negative (Double.ofNat 0)), rest) := by
      rw [List.cons_append, exponentValue, hd]
      simp only [exponentDigits_append hrest.startsWithDigit, hscan,
        skipDigits_append hrest.startsWithDigit, hall, List.nil_append]
    by_cases hlarge : significand ≠ 0 ∧ (!shrinks) = true
    · refine .of_error fun rest hrest => ?_
      rw [hread rest hrest, if_pos hlarge]
      exact ⟨_, rfl⟩
    · exact .of_ok fun rest hrest => (hread rest hrest).trans (if_neg hlarge)
  · obtain rfl : left = [] := by
      rw [hscan] at hsome
      exact hsome rfl
    refine (settled_realNumber negative significand
      (if shrinks then exponent - written else exponent + written)).congr fun rest hrest => ?_
    rw [List.cons_append, exponentValue, hd]
    simp only [exponentDigits_append hrest.startsWithDigit, hscan, List.nil_append]

theorem exponentPart_digit {c : Char} (hc : (digit? c).isSome = true) (significand : Nat)
    (exponent : Int) (cs : List Char) :
    exponentPart negative significand exponent (c :: cs)
      = exponentValue negative significand exponent false (c :: cs) := by
  unfold exponentPart
  split
  · next heq =>
    cases heq
    cases hc
  · next heq =>
    cases heq
    cases hc
  · rfl

/-- With either sign and without one an exponent is settled by its digits. -/
theorem settled_exponentPart {c : Char} {sign cs : List Char} (hsign : sign ∈ [[], ['+'], ['-']])
    (hc : (digit? c).isSome = true) (hcs : Digits cs) (significand : Nat) (exponent : Int) :
    Settled Ends (fun rest => exponentPart negative significand exponent
      (sign ++ c :: cs ++ rest)) := by
  have hvalue := settled_exponentValue negative hc hcs significand exponent
  simp only [List.mem_cons, List.not_mem_nil, or_false] at hsign
  rcases hsign with rfl | rfl | rfl
  · exact (hvalue false).congr fun rest _ => exponentPart_digit negative hc significand exponent
      (cs ++ rest)
  · exact (hvalue false).congr fun rest _ => rfl
  · exact (hvalue true).congr fun rest _ => rfl

/-- A number from behind the digits of its fraction on. -/
def afterFraction (negative : Bool) (significand : Nat) (exponent : Int) (cs : List Char) :
    Reading Number :=
  match cs with
  | e :: after =>
    if isExponentMark e then exponentPart negative significand exponent after
    else realNumber negative significand exponent cs
  | [] => realNumber negative significand exponent []

/-- All digits behind the point belong to the fraction, and then there may be an exponent. -/
theorem fractionPart_digits {c : Char} {cs tail : List Char} (hc : (digit? c).isSome = true)
    (hcs : Digits cs) (htail : startsWithDigit tail = false) (significand : Nat) (exponent : Int) :
    fractionPart negative significand exponent (c :: cs ++ tail)
      = afterFraction negative (fractionDigits significand 0 false (c :: cs)).1.1
          (exponent - (fractionDigits significand 0 false (c :: cs)).1.2) tail := by
  have hleft : (fractionDigits significand 0 false (c :: cs)).2 = [] := by
    rw [fractionDigits_rest]
    exact skipDigits_eq_nil (List.forall_mem_cons.mpr ⟨hc, hcs⟩)
  have hscan := fractionDigits_append htail significand 0 false (c :: cs)
  rw [hleft, List.nil_append] at hscan
  rw [List.cons_append] at hscan ⊢
  rw [fractionPart, if_neg (by simpa using Option.isSome_iff_ne_none.mp hc)]
  simp only [hscan]
  cases tail with
  | nil => rfl
  | cons e after => rfl

/-- An exponent starts with its mark, and an exponent that is not there with what ends the
number. -/
theorem IsExponent.startsWithDigit {exponent rest : List Char} (h : IsExponent exponent)
    (hrest : Ends rest) : startsWithDigit (exponent ++ rest) = false := by
  cases h with
  | absent => exact hrest.startsWithDigit
  | @digits e c sign cs he =>
    have hmark : e = 'e' ∨ e = 'E' := by simpa [isExponentMark] using he
    rcases hmark with rfl | rfl <;> rfl

theorem IsFraction.startsWithDigit {fraction exponent rest : List Char} (h : IsFraction fraction)
    (hexponent : IsExponent exponent) (hrest : Ends rest) :
    Json.startsWithDigit (fraction ++ exponent ++ rest) = false := by
  cases h with
  | absent => exact hexponent.startsWithDigit hrest
  | digits => rfl

theorem settled_afterFraction {text : List Char} (h : IsExponent text) (significand : Nat)
    (exponent : Int) :
    Settled Ends (fun rest => afterFraction negative significand exponent (text ++ rest)) := by
  cases h with
  | absent =>
    refine (settled_realNumber negative significand exponent).congr fun rest hrest => ?_
    cases rest with
    | nil => rfl
    | cons c rest => simp [afterFraction, hrest.not_goesOn.2.2]
  | @digits e c sign cs he hsign hc hcs =>
    refine (settled_exponentPart negative hsign hc hcs significand exponent).congr fun rest _ => ?_
    exact if_pos he

/-- Behind the whole part there is a fraction, an exponent, both or neither. -/
theorem settled_afterWhole {fraction exponent : List Char} (hfraction : IsFraction fraction)
    (hexponent : IsExponent exponent) (significand dropped : Nat) :
    Settled Ends
      (fun rest => afterWhole negative significand dropped (fraction ++ exponent ++ rest)) := by
  cases hfraction with
  | absent =>
    cases hexponent with
    | absent =>
      refine (settled_wholePart negative significand dropped).congr fun rest hrest => ?_
      cases rest with
      | nil => rfl
      | cons c rest => simp [afterWhole, hrest.not_goesOn]
    | @digits e c sign cs he hsign hc hcs =>
      have hpoint : e ≠ '.' := by
        rintro rfl
        cases he
      refine (settled_exponentPart negative hsign hc hcs significand dropped).congr fun rest _ => ?_
      exact (if_neg hpoint).trans (if_pos he)
  | @digits c cs hc hcs =>
    refine (settled_afterFraction negative hexponent
      (fractionDigits significand 0 false (c :: cs)).1.1
      (dropped - (fractionDigits significand 0 false (c :: cs)).1.2)).congr fun rest hrest => ?_
    rw [List.append_assoc]
    exact fractionPart_digits negative hc hcs (hexponent.startsWithDigit hrest) significand dropped

/-- **What a number is read as** does not depend on what follows it. -/
theorem settled_number {numeral : List Char} (h : IsNumeral numeral) :
    Settled Ends (fun rest => number negative (numeral ++ rest)) := by
  obtain ⟨hwhole, hfraction, hexponent⟩ := h
  cases hwhole with
  | @zero c hc =>
    refine (settled_afterWhole negative hfraction hexponent 0 0).congr fun rest hrest => ?_
    have htail := hfraction.startsWithDigit hexponent hrest
    rw [List.singleton_append, List.cons_append, List.cons_append]
    simp only [number, hc, htail, if_neg Bool.false_ne_true]
  | @digits c n cs hc hn hcs =>
    have hleft : (wholeDigits n 0 cs).2 = [] :=
      (wholeDigits_rest n 0 cs).trans (skipDigits_eq_nil hcs)
    refine (settled_afterWhole negative hfraction hexponent (wholeDigits n 0 cs).1.1
      (wholeDigits n 0 cs).1.2).congr fun rest hrest => ?_
    have hscan := wholeDigits_append (hfraction.startsWithDigit hexponent hrest) n 0 cs
    rw [hleft, List.nil_append] at hscan
    obtain ⟨m, rfl⟩ := Nat.exists_eq_succ_of_ne_zero hn
    rw [List.append_assoc, List.append_assoc, List.cons_append, ← List.append_assoc _ _ rest]
    simp only [number, hc, hscan]

end Numbers

/-- To pass over an exponent is to pass over its digits, however many there are. -/
theorem skipExponent_append {c : Char} {sign cs rest : List Char}
    (hsign : sign ∈ [[], ['+'], ['-']]) (hc : (digit? c).isSome = true) (hcs : Digits cs)
    (hrest : Ends rest) :
    skipExponent (sign ++ c :: cs ++ rest) = .ok rest := by
  refine skipExponent_iff.mpr ⟨sign, c :: cs ++ rest, hsign, by simp, c, cs ++ rest, rfl, hc, ?_⟩
  rw [skipDigits_append hrest.startsWithDigit, skipDigits_eq_nil hcs, List.nil_append]

theorem skipAfterWhole_append {fraction exponent rest : List Char} (hfraction : IsFraction fraction)
    (hexponent : IsExponent exponent) (hrest : Ends rest) :
    skipAfterWhole (fraction ++ exponent ++ rest) = .ok rest := by
  cases hfraction with
  | absent =>
    cases hexponent with
    | absent =>
      cases rest with
      | nil => rfl
      | cons c rest => simp [skipAfterWhole, hrest.not_goesOn]
    | @digits e c sign cs he hsign hc hcs =>
      have hpoint : e ≠ '.' := by
        rintro rfl
        cases he
      exact ((if_neg hpoint).trans (if_pos he)).trans (skipExponent_append hsign hc hcs hrest)
  | @digits c cs hc hcs =>
    -- the digits of the fraction stop at the exponent, or at the end of the token
    have hskip : skipDigits (c :: cs ++ exponent ++ rest) = exponent ++ rest := by
      rw [List.append_assoc, skipDigits_append (hexponent.startsWithDigit hrest),
        skipDigits_eq_nil (List.forall_mem_cons.mpr ⟨hc, hcs⟩), List.nil_append]
    have hstarts : startsWithDigit (c :: cs ++ exponent ++ rest) = true := hc
    show skipAfterWhole ('.' :: (c :: cs ++ exponent ++ rest)) = .ok rest
    rw [skipAfterWhole, if_pos rfl, if_pos hstarts, hskip]
    cases hexponent with
    | absent =>
      cases rest with
      | nil => rfl
      | cons d rest => exact if_neg (by simp [hrest.not_goesOn.2.2])
    | @digits e d sign ds he hsign hd hds =>
      exact (if_pos he).trans (skipExponent_append hsign hd hds hrest)

theorem skipNumber_append {numeral rest : List Char} (h : IsNumeral numeral) (hrest : Ends rest) :
    skipNumber (numeral ++ rest) = .ok rest := by
  obtain ⟨hwhole, hfraction, hexponent⟩ := h
  have htail := hfraction.startsWithDigit hexponent hrest
  rw [List.append_assoc, List.append_assoc, ← List.append_assoc _ _ rest]
  cases hwhole with
  | @zero c hc =>
    rw [List.singleton_append]
    simp only [skipNumber, hc, htail, if_neg Bool.false_ne_true]
    exact skipAfterWhole_append hfraction hexponent hrest
  | @digits c n cs hc hn hcs =>
    obtain ⟨m, rfl⟩ := Nat.exists_eq_succ_of_ne_zero hn
    have hskip := skipDigits_append htail cs
    rw [skipDigits_eq_nil hcs, List.nil_append] at hskip
    rw [List.cons_append, skipNumber, hc]
    exact (congrArg skipAfterWhole hskip).trans (skipAfterWhole_append hfraction hexponent hrest)

/-! ## Scalars

The first character tells which kind of scalar it is, and the lemmas about the kinds are put
together. -/

/-- A numeral starts with a digit. -/
theorem IsNumeral.exists_cons {numeral : List Char} (h : IsNumeral numeral) :
    ∃ c cs, numeral = c :: cs ∧ (digit? c).isSome = true := by
  obtain ⟨hwhole, -, -⟩ := h
  cases hwhole with
  | @zero c hc => exact ⟨c, _, rfl, by rw [hc]; rfl⟩
  | @digits c n cs hc => exact ⟨c, _, rfl, by rw [hc]; rfl⟩

theorem ne_of_digit {c d : Char} (hc : (digit? c).isSome = true)
    (hd : digit? d = none) : c ≠ d := by
  rintro rfl
  rw [hd] at hc
  cases hc

theorem scalar_digit {c : Char} (hc : (digit? c).isSome = true) (cs : List Char) :
    scalar (c :: cs) = (number false (c :: cs)).map (fun r => (r.1.toValue, r.2)) := by
  rw [scalar, if_neg (ne_of_digit hc rfl), if_neg (ne_of_digit hc rfl), if_neg (ne_of_digit hc rfl),
    if_neg (ne_of_digit hc rfl), if_pos hc]

theorem skipScalar_digit {c : Char} (hc : (digit? c).isSome = true) (cs : List Char) :
    skipScalar (c :: cs) = skipNumber (c :: cs) := by
  rw [skipScalar, if_neg (ne_of_digit hc rfl), if_neg (ne_of_digit hc rfl),
    if_neg (ne_of_digit hc rfl), if_neg (ne_of_digit hc rfl), if_pos hc]

/-- **What a scalar is read as** does not depend on what follows it. -/
theorem settled_scalar {token : List Char} (h : IsScalar token) :
    Settled Ends (fun rest => scalar (token ++ rest)) := by
  cases h with
  | word h =>
    simp only [List.mem_cons, List.not_mem_nil, or_false] at h
    rcases h with rfl | rfl | rfl
    all_goals exact .of_ok fun rest _ => rfl
  | positive h =>
    obtain ⟨c, cs, rfl, hc⟩ := h.exists_cons
    exact ((settled_number false h).map Number.toValue).congr
      fun rest _ => scalar_digit hc (cs ++ rest)
  | @negative numeral h => exact (settled_number true h).map Number.toValue
  | @string body h =>
    refine (((settled_string h).map Value.string).mono fun _ _ => trivial).congr fun rest _ => ?_
    simp only [quote, List.cons_append, List.append_assoc, List.nil_append]
    rfl

/-- **A scalar can be passed over.** -/
theorem skipScalar_append {token rest : List Char} (h : IsScalar token) (hrest : Ends rest) :
    skipScalar (token ++ rest) = .ok rest := by
  cases h with
  | word h =>
    simp only [List.mem_cons, List.not_mem_nil, or_false] at h
    rcases h with rfl | rfl | rfl
    all_goals rfl
  | positive h =>
    have hskip := skipNumber_append h hrest
    obtain ⟨c, cs, rfl, hc⟩ := h.exists_cons
    rw [List.cons_append, skipScalar_digit hc]
    exact hskip
  | @negative numeral h => exact skipNumber_append h hrest
  | @string body h =>
    simp only [quote, List.cons_append, List.append_assoc, List.nil_append]
    exact skipString_append h rest

end ArithScript.Json
