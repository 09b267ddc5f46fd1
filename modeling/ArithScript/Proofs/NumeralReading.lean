import ArithScript.Decimal.Numeral
import ArithScript.Proofs.JsonScan
import ArithScript.Proofs.ShortestDecimal
import Mathlib.Data.Bool.AllAny

/-!
# Numerals read back

A reader of the script takes a numeral for the double nearest to it (`Script.numeralValue?`). It has
no sign: a minus in front of a numeral is an operator that is applied to its value.

The numeral of a finite double therefore reads back as its magnitude, and the minus brings back the
sign (`exists_numeral`). What does not come back is the sign of a zero, which is never written;
`Double.mergeZeros` is what is left of a double.
-/

set_option autoImplicit false

namespace ArithScript

namespace Double

/-- A double without its sign. -/
def abs (x : Double) : Double := ofMagnitude false x.magnitude

/-- The zero without a sign in place of either zero, and any other double as it is. -/
def mergeZeros (x : Double) : Double := if x.isZero then ofMagnitude false 0 else x

/-- The minus brings back the sign of a double below zero. -/
theorem negate_abs {x : Double} (h : x.isNegative = true) : x.abs.negate = x.mergeZeros := by
  have hparts : (x.signBit = true ∧ x.isNaN = false) ∧ x.isZero = false := by
    simpa [isNegative] using h
  have hself := x.ofMagnitude_self
  rw [hparts.1.1] at hself
  rw [negate, abs, signBit_ofMagnitude _ x.magnitude_lt, magnitude_ofMagnitude _ x.magnitude_lt,
    Bool.not_false, hself, mergeZeros, hparts.2]
  rfl

/-- Any other finite double is without a sign, up to zero. -/
theorem abs_eq_mergeZeros {x : Double} (hfinite : x.isFinite = true) (h : x.isNegative = false) :
    x.abs = x.mergeZeros := by
  have hnumber : x.isNaN = false := by
    unfold isFinite at hfinite
    unfold isNaN
    rw [decide_eq_true_iff] at hfinite
    exact decide_eq_false (Nat.lt_asymm hfinite)
  unfold mergeZeros
  cases hzero : x.isZero with
  | true =>
    have hmagnitude : x.magnitude = 0 := by simpa [isZero] using hzero
    rw [if_pos rfl, abs, hmagnitude]
  | false =>
    have hsign : x.signBit = false := by simpa [isNegative, hnumber, hzero] using h
    have hself := x.ofMagnitude_self
    rw [hsign] at hself
    exact hself

end Double

namespace Script

/-- Whether digits may stand before the point: there are some, and only a single digit may be a zero
in front. -/
def isWholePart (cs : List Char) : Bool := cs ≠ [] && (cs.head? ≠ some '0' || cs.length = 1)

/-- The value of a numeral: a whole part, and maybe a point with digits behind it. -/
def numeralValue? (cs : List Char) : Option Double :=
  let whole := cs.takeWhile Char.isDigit
  if isWholePart whole then
    match cs.dropWhile Char.isDigit with
    | [] => some (Double.ofRatio (Nat.ofDigitChars 10 whole 0) 1)
    | '.' :: fraction =>
      if fraction ≠ [] && fraction.all Char.isDigit then
        some (Double.ofRatio (Nat.ofDigitChars 10 (whole ++ fraction) 0) (10 ^ fraction.length))
      else none
    | _ => none
  else none

section Runs

variable {p : Char → Bool} {body rest : List Char}

/-- A run of characters of a kind ends where one of another kind follows. -/
theorem takeWhile_run (hbody : ∀ c ∈ body, p c = true) (hrest : ∀ c ∈ rest.head?, p c = false) :
    (body ++ rest).takeWhile p = body := by
  rw [List.takeWhile_append_of_pos hbody]
  cases rest with
  | nil => simp
  | cons c rest => simp [hrest c rfl]

theorem dropWhile_run (hbody : ∀ c ∈ body, p c = true) (hrest : ∀ c ∈ rest.head?, p c = false) :
    (body ++ rest).dropWhile p = rest := by
  rw [List.dropWhile_append_of_pos hbody]
  cases rest with
  | nil => rfl
  | cons c rest => simp [hrest c rfl]

end Runs

theorem numeralValue?_whole {whole : List Char} (hdigits : ∀ c ∈ whole, c.isDigit = true)
    (hwhole : isWholePart whole = true) :
    numeralValue? whole = some (Double.ofRatio (Nat.ofDigitChars 10 whole 0) 1) := by
  have htake : (whole ++ []).takeWhile Char.isDigit = whole := takeWhile_run hdigits nofun
  have hdrop : (whole ++ []).dropWhile Char.isDigit = [] := dropWhile_run hdigits nofun
  rw [List.append_nil] at htake hdrop
  rw [numeralValue?, htake, hdrop]
  simp [hwhole]

theorem numeralValue?_point {whole fraction : List Char}
    (hdigits : ∀ c ∈ whole, c.isDigit = true) (hwhole : isWholePart whole = true)
    (hfraction : fraction ≠ []) (hplaces : ∀ c ∈ fraction, c.isDigit = true) :
    numeralValue? (whole ++ '.' :: fraction)
      = some (Double.ofRatio (Nat.ofDigitChars 10 (whole ++ fraction) 0)
          (10 ^ fraction.length)) := by
  have hpoint : ∀ c ∈ ('.' :: fraction).head?, c.isDigit = false := by simp [Char.isDigit]
  have hall : fraction.all Char.isDigit = true := List.all_eq_true.mpr hplaces
  rw [numeralValue?, takeWhile_run hdigits hpoint, dropWhile_run hdigits hpoint]
  simp [hwhole, hfraction, hall]

/-- A numeral without a sign, by the digits before the point and those behind it. Without digits
behind it, there is no point. -/
structure PlainNumeral where
  whole : List Char
  fraction : List Char
  whole_digits : ∀ c ∈ whole, c.isDigit = true
  whole_form : isWholePart whole = true
  fraction_digits : ∀ c ∈ fraction, c.isDigit = true

namespace PlainNumeral

/-- The digits of a numeral, without the point. -/
def digits (n : PlainNumeral) : List Char := n.whole ++ n.fraction

/-- What follows the digits before the point. -/
def tail (n : PlainNumeral) : List Char := if n.fraction = [] then [] else '.' :: n.fraction

/-- The text of a numeral. -/
def text (n : PlainNumeral) : List Char := n.whole ++ n.tail

theorem numeralValue?_text (n : PlainNumeral) :
    numeralValue? n.text
      = some (Double.ofRatio (Nat.ofDigitChars 10 n.digits 0) (10 ^ n.fraction.length)) := by
  obtain ⟨whole, fraction, hwhole, hform, hfraction⟩ := n
  unfold text tail digits
  by_cases hempty : fraction = []
  · subst hempty
    rw [if_pos rfl, List.append_nil, numeralValue?_whole hwhole hform, List.length_nil,
      Nat.pow_zero]
  · rw [if_neg hempty, numeralValue?_point hwhole hform hempty hfraction]

end PlainNumeral

theorem isWholePart_of_head {cs : List Char} {c : Char} (hhead : cs.head? = some c) (hc : c ≠ '0') :
    isWholePart cs = true := by
  cases cs with
  | nil => cases hhead
  | cons c' cs =>
    cases hhead
    simp [isWholePart, hc]

theorem isDigit_of_mem_zeros {count : ℕ} {c : Char} (h : c ∈ Decimal.zeros count) :
    c.isDigit = true := by
  rw [List.eq_of_mem_replicate h]
  rfl

/-- A numeral that is the positional layout of a decimal: it has the same value, its digits are
those of the decimal with zeros around them, and if it has a fraction, that ends where the decimal
ends. -/
structure PlainNumeral.LaysOut (n : PlainNumeral) (d : Decimal) : Prop where
  text_eq : n.text = d.positional
  numerator_eq : Nat.ofDigitChars 10 n.digits 0 = d.numerator
  denominator_eq : 10 ^ n.fraction.length = d.denominator
  padded : ∃ before after, n.digits = Decimal.zeros before ++ (d.digitChars ++ Decimal.zeros after)
  fraction_end : n.fraction ≠ [] → n.fraction.getLast? = d.digitChars.getLast?

section Layouts

variable {d : Decimal}

theorem isDigit_of_mem_digitChars {c : Char} (h : c ∈ d.digitChars) : c.isDigit = true :=
  Json.isDigit_of_mem_toDigits h

theorem ofDigitChars_digitChars : Nat.ofDigitChars 10 d.digitChars 0 = d.digits :=
  Nat.ofDigitChars_ten_toDigits

theorem digitChars_ne_nil : d.digitChars ≠ [] := Nat.toDigits_ne_nil

theorem exists_head_digitChars (hd : d.digits ≠ 0) :
    ∃ c, d.digitChars.head? = some c ∧ c ≠ '0' := by
  obtain ⟨c, cs, hcs⟩ := List.exists_cons_of_ne_nil (digitChars_ne_nil (d := d))
  exact ⟨c, by rw [hcs, List.head?_cons], Json.head_toDigits_ne_zero hd hcs⟩

/-- Zeros fill the places up to the point. -/
theorem exists_layout_whole (hd : d.digits ≠ 0) (hexponent : 0 ≤ d.exponent) :
    ∃ n : PlainNumeral, n.LaysOut d := by
  obtain ⟨c, hhead, hc⟩ := exists_head_digitChars hd
  have hwhole : isWholePart (d.digitChars ++ Decimal.zeros d.exponent.toNat) = true :=
    isWholePart_of_head (by rw [List.head?_append, hhead, Option.some_or]) hc
  have hdigits : ∀ c ∈ d.digitChars ++ Decimal.zeros d.exponent.toNat, c.isDigit = true :=
    fun c hmem => (List.mem_append.mp hmem).elim isDigit_of_mem_digitChars isDigit_of_mem_zeros
  have hzero : (-d.exponent).toNat = 0 := Int.toNat_eq_zero.mpr (by omega)
  refine ⟨⟨_, [], hdigits, hwhole, fun c hmem => absurd hmem List.not_mem_nil⟩, ?_, ?_, ?_,
    ⟨0, d.exponent.toNat, List.append_nil _⟩, fun h => absurd rfl h⟩
  · rw [Decimal.positional, if_pos hexponent]
    exact List.append_nil _
  · rw [PlainNumeral.digits, List.append_nil, Nat.ofDigitChars_append, ofDigitChars_digitChars,
      Decimal.zeros, Nat.ofDigitChars_replicate_zero, Nat.mul_comm, Decimal.numerator, Nat.pow_eq]
  · rw [Decimal.denominator, hzero, List.length_nil, Nat.pow_eq]

/-- The point goes between two digits. -/
theorem exists_layout_between (hd : d.digits ≠ 0) (hexponent : ¬ 0 ≤ d.exponent)
    (hplaces : (-d.exponent).toNat < d.digitChars.length) : ∃ n : PlainNumeral, n.LaysOut d := by
  obtain ⟨split, hsplit⟩ : ∃ split, split = d.digitChars.length - (-d.exponent).toNat := ⟨_, rfl⟩
  obtain ⟨c, hhead, hc⟩ := exists_head_digitChars hd
  have hwhole : isWholePart (d.digitChars.take split) = true := by
    refine isWholePart_of_head ?_ hc
    rw [List.head?_take, if_neg (by omega), hhead]
  have hlength : (d.digitChars.drop split).length = (-d.exponent).toNat := by
    rw [List.length_drop]
    omega
  have hpoint : d.digitChars.drop split ≠ [] := List.ne_nil_of_length_pos (by omega)
  have hzero : d.exponent.toNat = 0 := Int.toNat_eq_zero.mpr (by omega)
  refine ⟨⟨d.digitChars.take split, d.digitChars.drop split,
    fun c hmem => isDigit_of_mem_digitChars (List.mem_of_mem_take hmem), hwhole,
    fun c hmem => isDigit_of_mem_digitChars (List.mem_of_mem_drop hmem)⟩, ?_, ?_, ?_,
    ⟨0, 0, ?_⟩, fun _ => ?_⟩
  · rw [PlainNumeral.text, PlainNumeral.tail, if_neg hpoint, Decimal.positional, if_neg hexponent,
      if_pos hplaces, ← hsplit]
  · rw [PlainNumeral.digits, List.take_append_drop, ofDigitChars_digitChars,
      Decimal.numerator, hzero, Nat.pow_eq, Nat.pow_zero, Nat.mul_one]
  · rw [hlength, Decimal.denominator, Nat.pow_eq]
  · rw [PlainNumeral.digits, List.take_append_drop]
    exact (List.append_nil _).symm
  · rw [List.getLast?_drop, if_neg (by omega)]

/-- A zero stands before the point, and zeros between the point and the digits. -/
theorem exists_layout_fraction (hexponent : ¬ 0 ≤ d.exponent)
    (hplaces : ¬ (-d.exponent).toNat < d.digitChars.length) :
    ∃ n : PlainNumeral, n.LaysOut d := by
  obtain ⟨gap, hgap⟩ : ∃ gap, gap = (-d.exponent).toNat - d.digitChars.length := ⟨_, rfl⟩
  have hlength : (Decimal.zeros gap ++ d.digitChars).length = (-d.exponent).toNat := by
    rw [List.length_append, Decimal.zeros, List.length_replicate]
    omega
  have hpoint : Decimal.zeros gap ++ d.digitChars ≠ [] :=
    List.append_ne_nil_of_right_ne_nil _ digitChars_ne_nil
  -- the zero before the point and the zeros behind it are one row of leading zeros
  have hleading : ['0'] ++ (Decimal.zeros gap ++ d.digitChars)
      = Decimal.zeros (gap + 1) ++ d.digitChars := by
    rw [Decimal.zeros, Decimal.zeros, List.replicate_succ]
    rfl
  have hdigits : ∀ c ∈ Decimal.zeros gap ++ d.digitChars, c.isDigit = true :=
    fun c hmem => (List.mem_append.mp hmem).elim isDigit_of_mem_zeros isDigit_of_mem_digitChars
  have hfirst : ∀ c ∈ ['0'], c.isDigit = true := List.all_iff_forall_prop.mp (by decide)
  have hzero : d.exponent.toNat = 0 := Int.toNat_eq_zero.mpr (by omega)
  refine ⟨⟨['0'], Decimal.zeros gap ++ d.digitChars, hfirst, by decide, hdigits⟩, ?_, ?_, ?_,
    ⟨gap + 1, 0, ?_⟩, fun _ => ?_⟩
  · rw [PlainNumeral.text, PlainNumeral.tail, if_neg hpoint, Decimal.positional, if_neg hexponent,
      if_neg hplaces, ← hgap]
    rfl
  · rw [PlainNumeral.digits, hleading, Nat.ofDigitChars_append, Decimal.zeros,
      Nat.ofDigitChars_replicate_zero, Nat.mul_zero, ofDigitChars_digitChars, Decimal.numerator,
      hzero, Nat.pow_eq, Nat.pow_zero, Nat.mul_one]
  · rw [hlength, Decimal.denominator, Nat.pow_eq]
  · rw [PlainNumeral.digits, hleading]
    exact congrArg _ (List.append_nil _).symm
  · rw [List.getLast?_append_of_ne_nil _ digitChars_ne_nil]

/-- **Every decimal has its positional layout.** -/
theorem exists_layout (hd : d.digits ≠ 0) : ∃ n : PlainNumeral, n.LaysOut d := by
  by_cases hexponent : 0 ≤ d.exponent
  · exact exists_layout_whole hd hexponent
  · by_cases hplaces : (-d.exponent).toNat < d.digitChars.length
    · exact exists_layout_between hd hexponent hplaces
    · exact exists_layout_fraction hexponent hplaces

end Layouts

/-- The positional layout of a decimal reads as its value. -/
theorem numeralValue?_positional {d : Decimal} (hd : d.digits ≠ 0) :
    numeralValue? d.positional = some (Double.ofRatio d.numerator d.denominator) := by
  obtain ⟨n, h⟩ := exists_layout hd
  rw [← h.text_eq, n.numeralValue?_text, h.numerator_eq, h.denominator_eq]

/-- **The numeral of a finite double reads back**: the digits as the double without its sign, and
the minus of a double below zero as that. -/
theorem exists_numeral {x : Double} (hfinite : x.isFinite = true) :
    ∃ digits, numeral x = (if x.isNegative then '-' :: digits else digits)
      ∧ numeralValue? digits = some x.abs := by
  have hmagnitude : x.magnitude < Double.infinityMagnitude := by
    simpa [Double.isFinite] using hfinite
  have hnumber : x.isNaN = false := decide_eq_false (Nat.lt_asymm hmagnitude)
  have hbounded : x.isInfinite = false := beq_false_of_ne (Nat.ne_of_lt hmagnitude)
  unfold numeral
  rw [hnumber, hbounded]
  cases hzero : x.isZero with
  | true =>
    refine ⟨['0'], rfl, ?_⟩
    have hmagnitude : x.magnitude = 0 := by simpa [Double.isZero] using hzero
    rw [Double.abs, hmagnitude]
    decide
  | false =>
    refine ⟨_, rfl, ?_⟩
    have hdigits := Decimal.digits_shortest_ne_zero .upward hfinite hzero
    have hmagnitude := Decimal.magnitude_shortest .upward hfinite hzero
    rw [if_neg (by simp), if_neg (by simp), numeralValue?_positional hdigits, Double.ofRatio,
      Double.abs, ← hmagnitude]
    rfl

end Script

end ArithScript
