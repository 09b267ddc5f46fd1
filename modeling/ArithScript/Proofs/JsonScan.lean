import ArithScript.Json.Printer
import ArithScript.Json.Reader

/-!
# Reading printed strings and numbers

The printer escapes what the string machine would not take as it stands, and the machine undoes each
escape on its own, so a printed string is read back whatever it holds (`string_printString`).

A number does not say where it ends: the scanner goes on as long as it can. What follows a value in
printed text is a comma, a closing bracket or nothing (`Delimited`), and none of these goes on a
number. So a number that is read from a text by itself is read in front of a delimiter as well
(`number_append`), and for the numerals of natural numbers that is all there is to say
(`number_toDigits`).
-/

set_option autoImplicit false

namespace ArithScript.Json

theorem length_le_length_intercalate_of_mem {α : Type} (separator : List α) {item : List α}
    {items : List (List α)} (h : item ∈ items) :
    item.length ≤ (separator.intercalate items).length := by
  induction items with
  | nil => cases h
  | cons first items ih =>
    cases items with
    | nil => simp [List.mem_singleton.mp h]
    | cons next items =>
      rw [List.intercalate_cons_cons, List.length_append, List.length_append]
      rcases List.mem_cons.mp h with rfl | h
      · omega
      · have := ih h
        omega

/-- What may follow a value in printed text. -/
def Delimited (rest : List Char) : Prop := ∀ c ∈ rest.head?, c = ',' ∨ c = ']' ∨ c = '\x7d'

theorem delimited_nil : Delimited [] := nofun

theorem delimited_cons {c : Char} (h : c = ',' ∨ c = ']' ∨ c = '\x7d') (rest : List Char) :
    Delimited (c :: rest) := by
  rintro _ ⟨⟩
  exact h

/-! ## Strings

What must be escaped is escaped: quotation marks, backslashes and control characters. Some of these
have a letter, the others are written as a unit of four digits. -/

theorem hexDigit?_digitChar {n : Nat} (h : n < 16) : hexDigit? (Nat.digitChar n) = some n := by
  have all : ∀ n : Fin 16, hexDigit? (Nat.digitChar n) = some n.val := by decide
  exact all ⟨n, h⟩

/-- An escape by number is read as the character with that number. -/
theorem characters_hex {c : Char} (h : c.toNat < 0x20) (read rest : List Char) :
    characters .plain read (['\\', 'u', '0', '0', Nat.digitChar (c.toNat / 16),
        Nat.digitChar (c.toNat % 16)] ++ rest)
      = characters .plain (c :: read) rest := by
  have hzero : hexDigit? '0' = some 0 := by decide
  have hhigh := hexDigit?_digitChar (show c.toNat / 16 < 16 by omega)
  have hlow := hexDigit?_digitChar (show c.toNat % 16 < 16 by omega)
  have hnumber : c.toNat / 16 * 16 + c.toNat % 16 = c.toNat := by omega
  have htrailing : isTrailing c.toNat = false := by simp [isTrailing]; omega
  have hleading : isLeading c.toNat = false := by simp [isLeading]; omega
  simp [characters, hzero, hhigh, hlow, hnumber, htrailing, hleading, Char.ofNat_toNat]

/-- **Each character is read back from its own escape.** -/
theorem characters_escapeChar (c : Char) (read rest : List Char) :
    characters .plain read (escapeChar c ++ rest) = characters .plain (c :: read) rest := by
  unfold escapeChar
  split
  · next h => subst h; rfl
  split
  · next h => subst h; rfl
  split
  · next h => subst h; rfl
  split
  · next h => subst h; rfl
  split
  · next h => subst h; rfl
  split
  · next h => subst h; rfl
  split
  · next h => subst h; rfl
  split
  · next h => exact characters_hex h read rest
  · next hquote hbackslash _ _ _ _ _ hcontrol =>
    simp [characters, hquote, hbackslash, hcontrol]

/-- Character by character: each is written as it is or escaped, and read back as itself. -/
theorem characters_flatMap_escapeChar (cs read rest : List Char) :
    characters .plain read (cs.flatMap escapeChar ++ '"' :: rest)
      = .ok (read.reverse ++ cs, rest) := by
  induction cs generalizing read with
  | nil => simp [characters]
  | cons c cs ih =>
    rw [List.flatMap_cons, List.append_assoc, characters_escapeChar, ih, List.reverse_cons,
      List.append_assoc, List.singleton_append]

/-- A printed string is a quotation mark and what the string machine reads. -/
theorem printString_append (s : String) (rest : List Char) :
    printString s ++ rest = '"' :: (s.toList.flatMap escapeChar ++ '"' :: rest) := by
  simp [printString]

/-- **A printed string is read back**, whatever follows it. -/
theorem string_printString (s : String) (rest : List Char) :
    string (s.toList.flatMap escapeChar ++ '"' :: rest) = .ok (s, rest) := by
  rw [string, characters_flatMap_escapeChar]
  exact congrArg (fun s => Except.ok (s, rest)) (String.ofList_toList)

/-! ## Where numbers end

Each part of the scanner is taken by itself, with a text that it reads to some point and a delimiter
behind it. If there is something left of the text the scanner has stopped by itself; if not, it
stops at the delimiter. -/

/-- No delimiter is a digit, so digits in front of it are at an end. -/
theorem startsWithDigit_of_delimited {rest : List Char} (h : Delimited rest) :
    startsWithDigit rest = false := by
  cases rest with
  | nil => rfl
  | cons c rest =>
    rcases h c rfl with rfl | rfl | rfl <;> rfl

theorem isExponentMark_of_delimited {c : Char} {rest : List Char} (h : Delimited (c :: rest)) :
    isExponentMark c = false := by
  rcases h c rfl with rfl | rfl | rfl <;> rfl

theorem ne_point_of_delimited {c : Char} {rest : List Char} (h : Delimited (c :: rest)) :
    c ≠ '.' := by
  rcases h c rfl with rfl | rfl | rfl <;> decide

/-- Whether a text starts with a digit is decided before the rest, unless it is empty; and then the
rest decides that it does not. -/
theorem startsWithDigit_append {cs rest : List Char} (h : startsWithDigit rest = false) :
    startsWithDigit (cs ++ rest) = startsWithDigit cs := by
  cases cs with
  | nil => exact h
  | cons c cs => rfl

section Scanners

variable {rest : List Char} (h : startsWithDigit rest = false)
include h

/-- Digits are taken up to the same place. The loops over the whole part, the fraction and the
exponent add up different things but go over the same characters. -/
theorem wholeDigits_append (significand dropped : Nat) (cs : List Char) :
    wholeDigits significand dropped (cs ++ rest)
      = ((wholeDigits significand dropped cs).1,
        (wholeDigits significand dropped cs).2 ++ rest) := by
  fun_induction wholeDigits significand dropped cs with
  | case1 significand dropped =>
    cases rest with
    | nil => rfl
    | cons c rest =>
      have hdigit : digit? c = none := by simpa [startsWithDigit] using h
      simp [wholeDigits, hdigit]
  | case2 significand dropped c cs hdigit => simp [wholeDigits, hdigit]
  | case3 significand dropped c cs d hdigit hfits ih =>
    rw [List.cons_append, wholeDigits]
    simp only [hdigit, hfits, and_self, if_true, ih]
  | case4 significand dropped c cs d hdigit hfits ih =>
    rw [List.cons_append, wholeDigits]
    simp only [hdigit, hfits, if_false, ih]

theorem fractionDigits_append (significand places : Nat) (full : Bool) (cs : List Char) :
    fractionDigits significand places full (cs ++ rest)
      = ((fractionDigits significand places full cs).1,
          (fractionDigits significand places full cs).2 ++ rest) := by
  fun_induction fractionDigits significand places full cs with
  | case1 significand places full =>
    cases rest with
    | nil => rfl
    | cons c rest =>
      have hdigit : digit? c = none := by simpa [startsWithDigit] using h
      simp [fractionDigits, hdigit]
  | case2 significand places full c cs hdigit => simp [fractionDigits, hdigit]
  | case3 significand places full c cs d hdigit hfits ih =>
    rw [List.cons_append, fractionDigits]
    simp only [hdigit, hfits, if_true, ih]
  | case4 significand places full c cs d hdigit hfits ih =>
    rw [List.cons_append, fractionDigits]
    simp only [hdigit]
    rw [if_neg hfits, ih]

theorem exponentDigits_append (exponent : Nat) (cs : List Char) :
    exponentDigits exponent (cs ++ rest)
      = ((exponentDigits exponent cs).1, (exponentDigits exponent cs).2 ++ rest) := by
  fun_induction exponentDigits exponent cs with
  | case1 exponent =>
    cases rest with
    | nil => rfl
    | cons c rest =>
      have hdigit : digit? c = none := by simpa [startsWithDigit] using h
      simp [exponentDigits, hdigit]
  | case2 exponent c cs hdigit => simp [exponentDigits, hdigit]
  | case3 exponent c cs d hdigit hfits ih =>
    rw [List.cons_append, exponentDigits]
    simp only [hdigit, hfits, if_true, ih]
  | case4 exponent c cs d hdigit hfits => simp [exponentDigits, hdigit, hfits]

theorem skipDigits_append (cs : List Char) : skipDigits (cs ++ rest) = skipDigits cs ++ rest := by
  induction cs with
  | nil =>
    cases rest with
    | nil => rfl
    | cons c rest =>
      have hdigit : (digit? c).isSome = false := h
      simp [skipDigits, hdigit]
  | cons c cs ih =>
    by_cases hdigit : (digit? c).isSome = true
    · simpa [skipDigits, hdigit] using ih
    · simp [skipDigits, hdigit]

end Scanners

section Numbers

variable {rest : List Char} (h : Delimited rest) {negative : Bool} {n : Number} {left : List Char}

/-- What has been added up is turned into a number without a look at the rest. -/
theorem realNumber_append {significand : Nat} {exponent : Int} {cs : List Char}
    (hread : realNumber negative significand exponent cs = .ok (n, left)) :
    realNumber negative significand exponent (cs ++ rest) = .ok (n, left ++ rest) := by
  unfold realNumber at hread ⊢
  split at hread
  · cases hread
    rfl
  · cases hread

theorem wholePart_append {significand dropped : Nat} {cs : List Char}
    (hread : wholePart negative significand dropped cs = .ok (n, left)) :
    wholePart negative significand dropped (cs ++ rest) = .ok (n, left ++ rest) := by
  unfold wholePart at hread ⊢
  split at hread
  · next hkept =>
    cases hread
    exact if_pos hkept
  · next hdropped =>
    rw [if_neg hdropped]
    exact realNumber_append hread

include h

/-- The digits of an exponent end where they end by themselves. -/
theorem exponentValue_append {significand : Nat} {exponent : Int} {shrinks : Bool} {cs : List Char}
    (hread : exponentValue negative significand exponent shrinks cs = .ok (n, left)) :
    exponentValue negative significand exponent shrinks (cs ++ rest) = .ok (n, left ++ rest) := by
  have hdigits := startsWithDigit_of_delimited h
  cases cs with
  | nil => cases hread
  | cons c cs =>
    cases hdigit : digit? c with
    | none => simp [exponentValue, hdigit, failPast] at hread
    | some d =>
      simp only [List.cons_append, exponentValue, hdigit, exponentDigits_append hdigits] at hread ⊢
      rcases hscan : exponentDigits d cs with ⟨_ | written, after⟩
      · simp only [hscan] at hread ⊢
        split at hread
        · cases hread
        · cases hread
          rw [if_neg (by assumption), skipDigits_append hdigits]
      · simp only [hscan] at hread ⊢
        exact realNumber_append hread

theorem exponentPart_append {significand : Nat} {exponent : Int} {cs : List Char}
    (hread : exponentPart negative significand exponent cs = .ok (n, left)) :
    exponentPart negative significand exponent (cs ++ rest) = .ok (n, left ++ rest) := by
  unfold exponentPart at hread
  split at hread
  · exact exponentValue_append h hread
  · exact exponentValue_append h hread
  · next hplus hminus =>
    cases cs with
    | nil => cases hread
    | cons c cs =>
      have hread := exponentValue_append h hread
      unfold exponentPart
      split
      · next heq => cases heq; exact absurd rfl (hplus _)
      · next heq => cases heq; exact absurd rfl (hminus _)
      · exact hread

theorem fractionPart_append {significand : Nat} {exponent : Int} {cs : List Char}
    (hread : fractionPart negative significand exponent cs = .ok (n, left)) :
    fractionPart negative significand exponent (cs ++ rest) = .ok (n, left ++ rest) := by
  have hdigits := startsWithDigit_of_delimited h
  cases cs with
  | nil => cases hread
  | cons c cs =>
    have hfraction := fractionDigits_append hdigits significand 0 false (c :: cs)
    rw [List.cons_append] at hfraction
    simp only [List.cons_append, fractionPart, hfraction] at hread ⊢
    split at hread
    · cases hread
    · rw [if_neg (by assumption)]
      rcases hscan : fractionDigits significand 0 false (c :: cs) with ⟨⟨s, places⟩, after⟩
      simp only [hscan] at hread ⊢
      cases after with
      | nil =>
        -- the digits ran to the end of the token; what follows is no exponent mark
        have hread : realNumber negative s (exponent - places)
            ([] ++ rest) = .ok (n, left ++ rest) :=
          realNumber_append hread
        cases rest with
        | nil => exact hread
        | cons d rest =>
          simp only [List.nil_append, isExponentMark_of_delimited h] at hread ⊢
          exact hread
      | cons e after =>
        simp only [List.cons_append] at hread ⊢
        split at hread
        · next hmark =>
          rw [if_pos hmark]
          exact exponentPart_append h hread
        · next hmark =>
          rw [if_neg hmark]
          exact realNumber_append hread

/-- What decides how a number goes on behind its whole part is the next character: in the number
there is one, or else it is the delimiter. -/
theorem afterWhole_append {significand dropped : Nat} {cs : List Char}
    (hread : afterWhole negative significand dropped cs = .ok (n, left)) :
    afterWhole negative significand dropped (cs ++ rest) = .ok (n, left ++ rest) := by
  cases cs with
  | nil =>
    -- nothing follows in the token, so the rest must not be taken for its continuation
    have hread : wholePart negative significand dropped ([] ++ rest) = .ok (n, left ++ rest) :=
      wholePart_append hread
    cases rest with
    | nil => exact hread
    | cons d rest =>
      rw [List.nil_append] at hread ⊢
      rw [afterWhole, if_neg (ne_point_of_delimited h), isExponentMark_of_delimited h]
      exact hread
  | cons c cs =>
    simp only [List.cons_append, afterWhole] at hread ⊢
    split at hread
    · next hpoint =>
      rw [if_pos hpoint]
      exact fractionPart_append h hread
    split at hread
    · next hpoint hmark =>
      rw [if_neg hpoint, if_pos hmark]
      exact exponentPart_append h hread
    · next hpoint hmark =>
      rw [if_neg hpoint, if_neg hmark]
      exact wholePart_append hread

/-- **A number ends at a delimiter.** What is read from a text is read from the text and what may
follow it, and the latter is left. -/
theorem number_append {cs : List Char} (hread : number negative cs = .ok (n, left)) :
    number negative (cs ++ rest) = .ok (n, left ++ rest) := by
  have hdigits := startsWithDigit_of_delimited h
  cases cs with
  | nil => cases hread
  | cons c cs =>
    simp only [List.cons_append, number, startsWithDigit_append hdigits,
      wholeDigits_append hdigits] at hread ⊢
    split at hread
    · cases hread
    · split at hread
      · cases hread
      · rw [if_neg (by assumption)]
        exact afterWhole_append h hread
    · exact afterWhole_append h hread

end Numbers

/-! ## Natural numbers

A natural number that is printed has no leading zero, no fraction and no exponent. The scanner adds
up its digits, and drops none of them as long as the significand has room. -/

theorem toNat_of_isDigit {c : Char} (h : c.isDigit = true) : 48 ≤ c.toNat ∧ c.toNat ≤ 57 := by
  simp only [Char.isDigit, Bool.and_eq_true, decide_eq_true_eq] at h
  exact ⟨h.1, h.2⟩

theorem digit?_of_isDigit {c : Char} (h : c.isDigit = true) : digit? c = some (c.toNat - 48) := by
  rw [digit?, if_pos (toNat_of_isDigit h)]

theorem isDigit_of_mem_toDigits {n : Nat} {c : Char} (h : c ∈ Nat.toDigits 10 n) :
    c.isDigit = true :=
  Nat.isDigit_of_mem_toDigits (by decide) (by decide) h

/-- More digits make no number smaller. If all of them are within bounds, so are those read
first. -/
theorem le_ofDigitChars (cs : List Char) (start : Nat) : start ≤ Nat.ofDigitChars 10 cs start := by
  have hpow : 1 ≤ 10 ^ cs.length := Nat.one_le_pow _ _ (by decide)
  rw [Nat.ofDigitChars_eq_ofDigitChars_zero]
  calc start = 1 * start := (Nat.one_mul start).symm
    _ ≤ 10 ^ cs.length * start := Nat.mul_le_mul_right start hpow
    _ ≤ _ := Nat.le_add_right _ _

/-- Digits whose value fits are all kept. -/
theorem wholeDigits_ofDigitChars {digits rest : List Char}
    (hdigits : ∀ c ∈ digits, c.isDigit = true) (hrest : startsWithDigit rest = false) {start : Nat}
    (hfits : Nat.ofDigitChars 10 digits start ≤ maxSignificand) :
    wholeDigits start 0 (digits ++ rest) = ((Nat.ofDigitChars 10 digits start, 0), rest) := by
  induction digits generalizing start with
  | nil => simpa [wholeDigits] using wholeDigits_append hrest start 0 []
  | cons c digits ih =>
    have hdigit := digit?_of_isDigit (hdigits c List.mem_cons_self)
    have hstep : Nat.ofDigitChars 10 (c :: digits) start
        = Nat.ofDigitChars 10 digits (start * 10 + (c.toNat - 48)) := by
      rw [Nat.ofDigitChars_cons, Nat.mul_comm]
      rfl
    rw [hstep] at hfits ⊢
    have hnow : start * 10 + (c.toNat - 48) ≤ maxSignificand :=
      Nat.le_trans (le_ofDigitChars digits _) hfits
    rw [List.cons_append, wholeDigits, hdigit]
    simp only [true_and, hnow, if_true]
    exact ih (fun c hc => hdigits c (List.mem_cons_of_mem _ hc)) hfits

/-- A numeral other than `0` does not start with a zero. -/
theorem head_toDigits_ne_zero {n : Nat} (hn : n ≠ 0) {c : Char} {cs : List Char}
    (h : Nat.toDigits 10 n = c :: cs) : c ≠ '0' := by
  induction n using Nat.strongRecOn generalizing c cs with
  | ind n ih =>
    by_cases hsmall : n < 10
    · rw [Nat.toDigits_of_lt_base hsmall] at h
      cases h
      simpa using hn
    · rw [Nat.toDigits_of_base_le (by decide) (Nat.le_of_not_lt hsmall)] at h
      cases hhigh : Nat.toDigits 10 (n / 10) with
      | nil => exact absurd hhigh Nat.toDigits_ne_nil
      | cons d ds =>
        rw [hhigh, List.cons_append] at h
        cases h
        exact ih (n / 10) (by omega) (by omega) hhigh

/-- A natural number ends behind its whole part. -/
theorem afterWhole_of_delimited {significand : Nat} {rest : List Char} (h : Delimited rest) :
    afterWhole false significand 0 rest = .ok (.integer significand, rest) := by
  have hread : afterWhole false significand 0 [] = .ok (.integer significand, []) := rfl
  exact afterWhole_append h hread

/-- **A natural number that fits into 64 bits is read back.** -/
theorem number_toDigits {n : Nat} (hn : n ≤ maxSignificand) {rest : List Char}
    (hrest : Delimited rest) :
    number false (Nat.toDigits 10 n ++ rest) = .ok (.integer n, rest) := by
  have hstarts := startsWithDigit_of_delimited hrest
  by_cases hzero : n = 0
  · subst hzero
    rw [Nat.toDigits_zero, List.singleton_append, number]
    simp only [show digit? '0' = some 0 from rfl, hstarts]
    exact afterWhole_of_delimited hrest
  · have hvalue : Nat.ofDigitChars 10 (Nat.toDigits 10 n) 0 = n := Nat.ofDigitChars_ten_toDigits
    have hall : ∀ c ∈ Nat.toDigits 10 n, c.isDigit = true := fun c => isDigit_of_mem_toDigits
    cases hdigits : Nat.toDigits 10 n with
    | nil => exact absurd hdigits Nat.toDigits_ne_nil
    | cons c cs =>
      have hc := hall c (by rw [hdigits]; exact List.mem_cons_self)
      -- a leading zero before another digit would be refused
      have hlead : c.toNat ≠ 48 := fun heq =>
        head_toDigits_ne_zero hzero hdigits (Char.toNat_inj.mp heq)
      obtain ⟨d, hd⟩ : ∃ d, c.toNat - 48 = d + 1 :=
        ⟨c.toNat - 48 - 1, by have := toNat_of_isDigit hc; omega⟩
      have hvalue : Nat.ofDigitChars 10 cs (d + 1) = n := by
        rw [hdigits, Nat.ofDigitChars_cons, Nat.mul_zero, Nat.zero_add] at hvalue
        rw [← hd]
        exact hvalue
      have hscan := wholeDigits_ofDigitChars
        (fun d hd => hall d (by rw [hdigits]; exact List.mem_cons_of_mem _ hd)) hstarts
        (Nat.le_trans (Nat.le_of_eq hvalue) hn)
      rw [List.cons_append, number, digit?_of_isDigit hc, hd]
      simp only [hscan, hvalue]
      exact afterWhole_of_delimited hrest

end ArithScript.Json
