import ArithScript.Json.Reader
import ArithScript.Json.Skip
import ArithScript.Proofs.JsonGrammar
import ArithScript.Proofs.Outcomes
import Mathlib.Data.List.Basic

/-!
# Tokens that are read

Scalars are read by one scanner and passed over by another one, which asks for less: numbers may
have any size and surrogates may stand alone. What is read could have been passed over
(`skipScalar_of_scalar`), so the grammar has to be found in the second scanner only
(`isScalar_of_skipScalar`).
-/

set_option autoImplicit false

namespace ArithScript.Json

theorem Blank.append {first second : List Char} (hfirst : Blank first) (hsecond : Blank second) :
    Blank (first ++ second) :=
  List.forall_mem_append.mpr ⟨hfirst, hsecond⟩

/-- Behind the blanks that a text starts with. -/
theorem exists_blank_of_skipSpace {cs rest : List Char} (h : skipSpace cs = rest) :
    ∃ blanks, Blank blanks ∧ cs = blanks ++ rest := by
  refine ⟨cs.takeWhile isSpace, fun c hc => List.all_eq_true.mp List.all_takeWhile c hc, ?_⟩
  rw [← h]
  exact List.takeWhile_append_dropWhile.symm

/-! ## Strings

Both machines have a state for each place inside an escape. The states of the reader know more, the
units read so far and the leading half of a pair; forgetting that gives the states of the other
(`StringState.skipping`). -/

/-- What a string has taken when it is passed over and the machine is in a state. -/
def SkipState.Opened : SkipState → List Char → Prop
  | .plain, opened => opened = []
  | .escape, opened => opened = ['\\']
  | .hex count, opened =>
    ∃ digits, digits.length = count ∧ count ≤ 3 ∧ digits.all isHexDigit = true
      ∧ opened = '\\' :: 'u' :: digits

theorem hexFailure_ne_ok {α : Type} (missing : Nat) (rest : List Char) (x : α) :
    hexFailure missing rest ≠ .ok x := by
  unfold hexFailure
  dsimp only
  split <;> nofun

/-- **What is passed over as a string is quoted.** The machine may be in the middle of an escape, so
what it has opened belongs to the body too. -/
theorem quoted_of_skipString {state : SkipState} {cs rest : List Char}
    (h : skipString state cs = .ok rest) {opened : List Char} (hopened : state.Opened opened) :
    ∃ body, cs = body ++ '"' :: rest ∧ Quoted (opened ++ body) := by
  -- `opened` is what the machine has taken since it was in its first state, and goes into the body
  -- with the character that brings it back there.
  fun_induction skipString state cs generalizing opened with
  | case1 state => cases h
  | case2 cs =>
    cases h
    cases hopened
    exact ⟨[], rfl, .nil⟩
  | case3 cs _ ih =>
    cases hopened
    obtain ⟨body, rfl, hbody⟩ := ih h rfl
    exact ⟨_ :: body, rfl, hbody⟩
  | case4 => cases h
  | case5 c cs hquote hbackslash hcontrol ih =>
    cases hopened
    obtain ⟨body, rfl, hbody⟩ := ih h rfl
    exact ⟨c :: body, rfl, .plain hquote hbackslash (Nat.le_of_not_lt hcontrol) hbody⟩
  | case6 cs ih =>
    cases hopened
    obtain ⟨body, rfl, hbody⟩ := ih h ⟨[], rfl, by decide, rfl, rfl⟩
    exact ⟨_ :: body, rfl, hbody⟩
  | case7 c cs _ e hescape ih =>
    cases hopened
    obtain ⟨body, rfl, hbody⟩ := ih h rfl
    exact ⟨c :: body, rfl, .escape (by rw [hescape]; rfl) hbody⟩
  | case8 => cases h
  | case9 => exact absurd h (hexFailure_ne_ok _ _ _)
  | case10 count c cs digit hdigit hcount ih =>
    obtain ⟨digits, hlength, -, hdigits, rfl⟩ := hopened
    have hall : (digits ++ [c]).all isHexDigit = true := by
      simp [hdigits, isHexDigit, hdigit]
    obtain ⟨body, rfl, hbody⟩ := ih h ⟨digits ++ [c], by simp [hlength], hcount, hall, rfl⟩
    exact ⟨c :: body, rfl, by simpa using hbody⟩
  | case11 count c cs digit hdigit hcount ih =>
    obtain ⟨digits, hlength, hle, hdigits, rfl⟩ := hopened
    obtain ⟨body, rfl, hbody⟩ := ih h rfl
    obtain ⟨a, b, d, rfl⟩ := List.length_eq_three.mp (show digits.length = 3 by omega)
    refine ⟨c :: body, rfl, .unit ?_ hbody⟩
    simp only [List.all_cons, List.all_nil, Bool.and_true, Bool.and_eq_true] at hdigits ⊢
    exact ⟨hdigits.1, hdigits.2.1, hdigits.2.2, by rw [isHexDigit, hdigit]; rfl⟩

/-- What the machine that passes over strings is in the middle of when the other one reads. -/
def StringState.skipping : StringState → SkipState
  | .plain => .plain
  | .escape => .escape
  | .hex _ count _ => .hex count
  | .pair _ => .plain
  | .pairEscape _ => .escape

theorem skipString_hex_last {count digit : Nat} {c : Char} {cs : List Char}
    (hdigit : hexDigit? c = some digit) (hcount : ¬ count < 3) :
    skipString (.hex count) (c :: cs) = skipString .plain cs := by
  rw [skipString, hdigit]
  exact if_neg hcount

/-- A string that is read could have been passed over. -/
theorem skipString_of_characters {state : StringState} {read cs out rest : List Char}
    (h : characters state read cs = .ok (out, rest)) : skipString state.skipping cs = .ok rest := by
  -- The reader refuses more, so each of its moves is one of the other machine. A surrogate pair is
  -- two escapes there.
  fun_induction characters state read cs with
  | case1 | case4 | case8 | case12 | case13 | case17 | case19 => cases h
  | case2 =>
    cases h
    rfl
  | case3 _ _ _ ih => exact ih h
  | case5 read c cs hquote hbackslash hcontrol ih =>
    show skipString .plain (c :: cs) = .ok rest
    rw [skipString, if_neg hquote, if_neg hbackslash, if_neg hcontrol]
    exact ih h
  | case6 _ _ ih => exact ih h
  | case7 read c cs hunit e hescape ih =>
    show skipString .escape (c :: cs) = .ok rest
    rw [skipString, if_neg hunit, hescape]
    exact ih h
  | case9 => exact absurd h (hexFailure_ne_ok _ _ _)
  | case10 leading count value read c cs digit hdigit unit hcount ih =>
    show skipString (.hex count) (c :: cs) = .ok rest
    rw [skipString, hdigit]
    exact (if_pos hcount).trans (ih h)
  | case11 count value read c cs digit hdigit unit hcount first _ ih =>
    rw [StringState.skipping, skipString_hex_last hdigit hcount]
    exact ih h
  | case14 count value read c cs digit hdigit unit hcount _ _ ih =>
    rw [StringState.skipping, skipString_hex_last hdigit hcount]
    exact ih h
  | case15 count value read c cs digit hdigit unit hcount _ _ ih =>
    rw [StringState.skipping, skipString_hex_last hdigit hcount]
    exact ih h
  | case16 _ _ _ ih => exact ih h
  | case18 _ _ _ ih => exact ih h

/-- What is read as a string could have been passed over. -/
theorem skipString_of_string {cs rest : List Char} {s : String} (h : string cs = .ok (s, rest)) :
    skipString .plain cs = .ok rest := by
  obtain ⟨r, hread, heq⟩ := exists_of_map_eq_ok h
  cases heq
  exact skipString_of_characters hread

/-! ## Numbers

The reader adds up a significand and an exponent, and may find that the number is out of range. As
for where it stops it does what the other scanner does: each part of it leaves what passing over
leaves. -/

theorem exists_digits_of_skipDigits (cs : List Char) :
    ∃ digits, Digits digits ∧ cs = digits ++ skipDigits cs :=
  ⟨_, fun c hc => List.all_eq_true.mp List.all_takeWhile c hc, List.takeWhile_append_dropWhile.symm⟩

theorem skipDigits_cons {c : Char} (h : (digit? c).isSome = true) (cs : List Char) :
    skipDigits (c :: cs) = skipDigits cs :=
  List.dropWhile_cons_of_pos h

theorem skipDigits_cons_of_none {c : Char} (h : digit? c = none) (cs : List Char) :
    skipDigits (c :: cs) = c :: cs :=
  List.dropWhile_cons_of_neg (by simp [h])

/-- The digits of an exponent that is passed over, from behind its sign on. -/
def SkipsExponent (cs rest : List Char) : Prop :=
  ∃ c after, cs = c :: after ∧ (digit? c).isSome = true ∧ rest = skipDigits after

/-- The two places where digits of an exponent are asked for have the same body. -/
theorem skipsExponent_iff {cs rest : List Char} :
    (match cs with
      | [] => failHere .invalidNumber []
      | c :: after =>
        if (digit? c).isSome then .ok (skipDigits after) else failPast .invalidNumber cs) = .ok rest
      ↔ SkipsExponent cs rest := by
  constructor
  · intro h
    split at h
    · cases h
    · split at h
      · next c after hdigit =>
        cases h
        exact ⟨c, after, rfl, hdigit, rfl⟩
      · cases h
  · rintro ⟨c, after, rfl, hdigit, rfl⟩
    exact if_pos hdigit

/-- The sign of an exponent may be missing. -/
theorem skipExponent_iff {cs rest : List Char} :
    skipExponent cs = .ok rest
      ↔ ∃ sign digits, sign ∈ [[], ['+'], ['-']] ∧ cs = sign ++ digits
        ∧ SkipsExponent digits rest := by
  unfold skipExponent
  constructor
  · intro h
    split at h
    · exact ⟨['+'], _, by simp, rfl, skipsExponent_iff.mp h⟩
    · exact ⟨['-'], _, by simp, rfl, skipsExponent_iff.mp h⟩
    · exact ⟨[], _, by simp, rfl, skipsExponent_iff.mp h⟩
  · rintro ⟨sign, digits, hsign, rfl, h⟩
    simp only [List.mem_cons, List.not_mem_nil, or_false] at hsign
    rcases hsign with rfl | rfl | rfl
    · split
      · next rest heq =>
        obtain ⟨c, after, rfl, hdigit, -⟩ := h
        cases heq
        cases hdigit
      · next rest heq =>
        obtain ⟨c, after, rfl, hdigit, -⟩ := h
        cases heq
        cases hdigit
      · exact skipsExponent_iff.mpr h
    · exact skipsExponent_iff.mpr h
    · exact skipsExponent_iff.mpr h

/-- An exponent is its mark, a sign if there is one, and at least one digit. -/
theorem isExponent_of_skipExponent {e : Char} (he : isExponentMark e = true) {cs rest : List Char}
    (h : skipExponent cs = .ok rest) : ∃ exponent, IsExponent exponent
      ∧ e :: cs = exponent ++ rest := by
  obtain ⟨sign, digits, hsign, rfl, c, after, rfl, hc, rfl⟩ := skipExponent_iff.mp h
  obtain ⟨digits, hdigits, hafter⟩ := exists_digits_of_skipDigits after
  refine ⟨_, .digits he hsign hc hdigits, ?_⟩
  simp [← hafter]

/-- Behind the whole part of a numeral there may be a fraction and an exponent. -/
theorem exists_of_skipAfterWhole {cs rest : List Char} (h : skipAfterWhole cs = .ok rest) :
    ∃ fraction exponent, IsFraction fraction ∧ IsExponent exponent
      ∧ cs = fraction ++ exponent ++ rest := by
  unfold skipAfterWhole at h
  split at h
  · cases h
    exact ⟨[], [], .absent, .absent, rfl⟩
  · next c after =>
    split at h
    · next hpoint =>
      subst hpoint
      split at h
      · next hstarts =>
        -- a point without a digit behind it was refused
        cases after with
        | nil => cases hstarts
        | cons d after =>
          obtain ⟨digits, hdigits, hafter⟩ := exists_digits_of_skipDigits after
          have hfraction : IsFraction ('.' :: d :: digits) := .digits hstarts hdigits
          rw [skipDigits_cons hstarts] at h
          split at h
          · next hskip =>
            cases h
            exact ⟨_, [], hfraction, .absent, by rw [hafter, hskip]; simp⟩
          · next e left hskip =>
            split at h
            · next hmark =>
              obtain ⟨exponent, hexponent, hleft⟩ := isExponent_of_skipExponent hmark h
              exact ⟨_, exponent, hfraction, hexponent, by rw [hafter, hskip, hleft]; simp⟩
            · cases h
              exact ⟨_, [], hfraction, .absent, by rw [hafter, hskip]; simp⟩
      · cases h
    · split at h
      · next hmark =>
        obtain ⟨exponent, hexponent, hleft⟩ := isExponent_of_skipExponent hmark h
        exact ⟨[], exponent, .absent, hexponent, hleft⟩
      · cases h
        exact ⟨[], [], .absent, .absent, rfl⟩

/-- **What is passed over as a number is a numeral.** A whole part that starts with zero is zero. -/
theorem isNumeral_of_skipNumber {cs rest : List Char} (h : skipNumber cs = .ok rest) :
    ∃ numeral, IsNumeral numeral ∧ cs = numeral ++ rest := by
  unfold skipNumber at h
  split at h
  · cases h
  · next c after =>
    split at h
    · cases h
    · next hzero =>
      split at h
      · cases h
      · obtain ⟨fraction, exponent, hfraction, hexponent, rfl⟩ := exists_of_skipAfterWhole h
        exact ⟨_, .mk (.zero hzero) hfraction hexponent, by simp⟩
    · next n hdigit hn =>
      obtain ⟨digits, hdigits, hafter⟩ := exists_digits_of_skipDigits after
      obtain ⟨fraction, exponent, hfraction, hexponent, hskip⟩ := exists_of_skipAfterWhole h
      refine ⟨_, .mk (.digits hn hdigit hdigits) hfraction hexponent, ?_⟩
      rw [hafter, hskip]
      simp

/-- The reader keeps some digits and drops others, but it goes over as many as the other scanner. -/
theorem wholeDigits_rest (significand dropped : Nat) (cs : List Char) :
    (wholeDigits significand dropped cs).2 = skipDigits cs := by
  fun_induction wholeDigits significand dropped cs with
  | case1 => rfl
  | case2 _ _ c cs hdigit => rw [skipDigits_cons_of_none hdigit]
  | case3 _ _ c cs d hdigit _ ih => rw [ih, skipDigits_cons (by rw [hdigit]; rfl)]
  | case4 _ _ c cs d hdigit _ ih => rw [ih, skipDigits_cons (by rw [hdigit]; rfl)]

theorem fractionDigits_rest (significand places : Nat) (full : Bool) (cs : List Char) :
    (fractionDigits significand places full cs).2 = skipDigits cs := by
  fun_induction fractionDigits significand places full cs with
  | case1 => rfl
  | case2 _ _ _ c cs hdigit => rw [skipDigits_cons_of_none hdigit]
  | case3 _ _ _ c cs d hdigit _ ih => rw [ih, skipDigits_cons (by rw [hdigit]; rfl)]
  | case4 _ _ _ c cs d hdigit _ ih => rw [ih, skipDigits_cons (by rw [hdigit]; rfl)]

/-- The digits of an exponent are left off early if they grow too large. -/
theorem exponentDigits_rest (exponent : Nat) (cs : List Char) :
    skipDigits (exponentDigits exponent cs).2 = skipDigits cs
      ∧ ((exponentDigits exponent cs).1.isSome = true →
        (exponentDigits exponent cs).2 = skipDigits cs) := by
  fun_induction exponentDigits exponent cs with
  | case1 => exact ⟨rfl, fun _ => rfl⟩
  | case2 _ c cs hdigit =>
    rw [skipDigits_cons_of_none hdigit]
    exact ⟨rfl, fun _ => rfl⟩
  | case3 _ c cs d hdigit _ ih =>
    rw [skipDigits_cons (by rw [hdigit]; rfl)]
    exact ih
  | case4 _ c cs d hdigit _ =>
    rw [skipDigits_cons (by rw [hdigit]; rfl)]
    exact ⟨rfl, fun h => absurd h Bool.false_ne_true⟩

section Numbers

variable {negative : Bool} {significand : Nat} {exponent : Int} {n : Number} {cs rest : List Char}

theorem rest_of_realNumber (h : realNumber negative significand exponent cs = .ok (n, rest)) :
    rest = cs := by
  unfold realNumber at h
  split at h
  · cases h
    rfl
  · cases h

theorem rest_of_wholePart {dropped : Nat}
    (h : wholePart negative significand dropped cs = .ok (n, rest)) :
    rest = cs := by
  unfold wholePart at h
  split at h
  · cases h
    rfl
  · exact rest_of_realNumber h

/-- An exponent that is read, or that is too great to be read and makes zero, is passed over in
full. -/
theorem skipsExponent_of_exponentValue {shrinks : Bool}
    (h : exponentValue negative significand exponent shrinks cs = .ok (n, rest)) :
    SkipsExponent cs rest := by
  cases cs with
  | nil => cases h
  | cons c after =>
    rw [exponentValue] at h
    cases hdigit : digit? c with
    | none =>
      rw [hdigit] at h
      cases h
    | some d =>
      obtain ⟨hall, hsome⟩ := exponentDigits_rest d after
      refine ⟨c, after, rfl, by rw [hdigit]; rfl, ?_⟩
      rw [hdigit] at h
      dsimp only at h
      split at h
      · next written left hscan =>
        rw [hscan] at hsome
        exact (rest_of_realNumber h).trans (hsome rfl)
      · next left hscan =>
        -- an exponent too large to count is skipped to its end as well
        rw [hscan] at hall
        split at h
        · cases h
        · cases h
          exact hall

theorem skipExponent_of_exponentPart
    (h : exponentPart negative significand exponent cs = .ok (n, rest)) :
    skipExponent cs = .ok rest := by
  refine skipExponent_iff.mpr ?_
  unfold exponentPart at h
  split at h
  · exact ⟨['+'], _, by simp, rfl, skipsExponent_of_exponentValue h⟩
  · exact ⟨['-'], _, by simp, rfl, skipsExponent_of_exponentValue h⟩
  · exact ⟨[], _, by simp, rfl, skipsExponent_of_exponentValue h⟩

/-- A fraction that is read has a digit, and the exponent behind it has been read too. -/
theorem skipAfterWhole_of_fractionPart
    (h : fractionPart negative significand exponent cs = .ok (n, rest)) :
    skipAfterWhole ('.' :: cs) = .ok rest := by
  cases cs with
  | nil => cases h
  | cons c after =>
    have hrest := fractionDigits_rest significand 0 false (c :: after)
    rw [fractionPart] at h
    split at h
    · cases h
    · next hdigit =>
      have hstarts : startsWithDigit (c :: after) = true := by
        simpa [startsWithDigit, Option.isSome_iff_ne_none] using hdigit
      rcases hscan : fractionDigits significand 0 false (c :: after) with ⟨⟨s, places⟩, left⟩
      -- both scans stop behind the same digits; from there the mark decides for both
      rw [hscan] at h hrest
      rw [skipAfterWhole, if_pos rfl, if_pos hstarts, ← hrest]
      cases left with
      | nil =>
        obtain rfl := rest_of_realNumber h
        rfl
      | cons e left =>
        dsimp only at h ⊢
        split at h
        · next hmark =>
          rw [if_pos hmark]
          exact skipExponent_of_exponentPart h
        · next hmark =>
          rw [if_neg hmark, rest_of_realNumber h]

theorem skipAfterWhole_of_afterWhole {dropped : Nat}
    (h : afterWhole negative significand dropped cs = .ok (n, rest)) :
    skipAfterWhole cs = .ok rest := by
  unfold afterWhole at h
  split at h
  · rw [rest_of_wholePart h]
    rfl
  · next c after =>
    split at h
    · next hpoint =>
      subst hpoint
      exact skipAfterWhole_of_fractionPart h
    · next hpoint =>
      rw [skipAfterWhole, if_neg hpoint]
      split at h
      · next hmark =>
        rw [if_pos hmark]
        exact skipExponent_of_exponentPart h
      · next hmark =>
        rw [if_neg hmark, rest_of_wholePart h]

/-- A number that is read could have been passed over. -/
theorem skipNumber_of_number (h : number negative cs = .ok (n, rest)) :
    skipNumber cs = .ok rest := by
  cases cs with
  | nil => cases h
  | cons c after =>
    rw [number] at h
    rw [skipNumber]
    cases hdigit : digit? c with
    | none =>
      rw [hdigit] at h
      cases h
    | some d =>
      rw [hdigit] at h
      cases d with
      | zero =>
        by_cases hstarts : startsWithDigit after = true
        · simp [hstarts, failPast] at h
        · simp only [hstarts] at h ⊢
          exact skipAfterWhole_of_afterWhole h
      | succ d =>
        dsimp only at h ⊢
        rw [← wholeDigits_rest (d + 1) 0 after]
        exact skipAfterWhole_of_afterWhole h

end Numbers

/-! ## Scalars

Here the kinds are put together. -/

theorem eq_append_of_word {letters cs rest : List Char} (h : word letters cs = .ok ((), rest)) :
    cs = letters ++ rest := by
  fun_induction word letters cs with
  | case1 => cases h; rfl
  | case2 => cases h
  | case3 w ws cs ih => rw [ih h]; rfl
  | case4 => cases h

/-- **What is passed over as a scalar is one.** The first character says which kind. -/
theorem isScalar_of_skipScalar {cs rest : List Char} (h : skipScalar cs = .ok rest) :
    ∃ token, IsScalar token ∧ cs = token ++ rest := by
  have of_word {letters after : List Char} (hword : (word letters after).map Prod.snd = .ok rest) :
      after = letters ++ rest := by
    obtain ⟨⟨⟩, hread, rfl⟩ := exists_of_map_eq_ok hword
    exact eq_append_of_word hread
  cases cs with
  | nil => cases h
  | cons c after =>
    -- the first character decides: three words, a signed number, a number, a string
    rw [skipScalar] at h
    split at h
    · next hc =>
      subst hc
      exact ⟨_, .word List.mem_cons_self, by rw [of_word h]; rfl⟩
    split at h
    · next hc =>
      subst hc
      exact ⟨_, .word (List.mem_cons_of_mem _ List.mem_cons_self), by rw [of_word h]; rfl⟩
    split at h
    · next hc =>
      subst hc
      exact ⟨_, .word (List.mem_cons_of_mem _ (List.mem_cons_of_mem _ List.mem_cons_self)),
        by rw [of_word h]; rfl⟩
    split at h
    · next hc =>
      subst hc
      obtain ⟨numeral, hnumeral, rfl⟩ := isNumeral_of_skipNumber h
      exact ⟨_, .negative hnumeral, rfl⟩
    split at h
    · obtain ⟨numeral, hnumeral, hcs⟩ := isNumeral_of_skipNumber h
      exact ⟨_, .positive hnumeral, hcs⟩
    split at h
    · next hc =>
      subst hc
      obtain ⟨body, rfl, hbody⟩ := quoted_of_skipString h rfl
      exact ⟨_, .string hbody, by simp [quote]⟩
    · cases h

end ArithScript.Json
