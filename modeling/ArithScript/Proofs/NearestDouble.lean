import ArithScript.Proofs.DoubleRounding
import Mathlib.Algebra.Order.Group.Abs

/-!
# The nearest double

Rounding has a meaning that does not depend on how it is computed: a rational rounds to a double if
no other is nearer, and if another is as near, to the one with the even significand (`RoundsTo`).
Infinity takes part as `2 ^ 1024`, the number that would follow the greatest finite double, so what
lies halfway between these two, or further, rounds to infinity.

Three facts are all that others need. `ofMagnitude` of `magnitudeOfRatio` is what a quotient rounds
to (`roundsTo_ratio`). There is one such value only, because of two neighbours one has an even
significand and the other has not (`RoundsTo.value_eq`). And what lies between a rational and the
double that it rounds to rounds there too (`RoundsTo.between`).
-/

set_option autoImplicit false

namespace ArithScript.Double

/-- The value of a double, sign apart. An infinity stands for `2 ^ 1024`. -/
def absValue (x : Double) : ℚ := x.significand * 2 ^ x.exponent

/-- The value of a double. -/
def value (x : Double) : ℚ := if x.signBit then -x.absValue else x.absValue

/-- A rational rounds to a double: it is a nearest one, and if another is as near, its significand
is even. -/
structure RoundsTo (r : ℚ) (x : Double) : Prop where
  number : x.isNaN = false
  nearest : ∀ y : Double, y.isNaN = false → |r - x.value| ≤ |r - y.value|
  even : ∀ y : Double, y.isNaN = false → y.value ≠ x.value → |r - x.value| = |r - y.value| →
    x.significand % 2 = 0

variable {x y : Double}

/-! ## Values and magnitudes

The value of a double is a rational. Without their signs doubles are in the order of their
magnitudes, infinity included, so comparing values comes to comparing natural numbers. -/

theorem absValue_nonneg (x : Double) : 0 ≤ x.absValue := by
  unfold absValue
  positivity

theorem isNaN_eq_false_iff : x.isNaN = false ↔ x.magnitude ≤ infinityMagnitude := by
  unfold isNaN
  rw [decide_eq_false_iff_not, Nat.not_lt]

theorem abs_value (x : Double) : |x.value| = x.absValue := by
  unfold value
  split
  · rw [abs_neg, abs_of_nonneg x.absValue_nonneg]
  · exact abs_of_nonneg x.absValue_nonneg

/-- The parity of the significand is that of the magnitude. -/
theorem significand_mod_two (x : Double) : x.significand % 2 = x.magnitude % 2 := by
  have hfields := x.magnitude_eq_fields
  omega

/-- The fields that a magnitude is put together from are those of the double. -/
theorem fields_eq {q : ℤ} {m : ℕ} (hq : -1074 ≤ q) (hm : m < 2 ^ 53)
    (hnormal : q = -1074 ∨ 2 ^ 52 ≤ m) (h : x.magnitude = (q + 1074).toNat * 2 ^ 52 + m) :
    x.exponent = q ∧ x.significand = m := by
  have hfields := x.magnitude_eq_fields
  have hexponent := x.neg_1074_le_exponent
  have hsignificand := x.significand_lt
  have hx := x.normal_or_least
  omega

/-- The value of a magnitude, also if the significand has been carried up to `2 ^ 53`. -/
theorem absValue_eq {q : ℤ} {m : ℕ} (hq : -1074 ≤ q) (hm : m ≤ 2 ^ 53)
    (hnormal : q = -1074 ∨ 2 ^ 52 ≤ m) (h : x.magnitude = (q + 1074).toNat * 2 ^ 52 + m) :
    x.absValue = m * 2 ^ q := by
  unfold absValue
  rcases Nat.lt_or_eq_of_le hm with hlt | hcarry
  · obtain ⟨hexponent, hsignificand⟩ := fields_eq hq hlt hnormal h
    rw [hexponent, hsignificand]
  · have hstep : (q + 1 + 1074).toNat = (q + 1074).toNat + 1 := by omega
    have hnext : x.magnitude = (q + 1 + 1074).toNat * 2 ^ 52 + 2 ^ 52 := by
      rw [h, hcarry, hstep]
      ring
    obtain ⟨hexponent, hsignificand⟩ :=
      fields_eq (by omega) (by norm_num) (.inr (Nat.le_refl _)) hnext
    rw [hexponent, hsignificand, hcarry, zpow_add₀ two_ne_zero]
    push_cast
    ring

/-- **A larger magnitude is a larger value.** -/
theorem absValue_lt_absValue (h : x.magnitude < y.magnitude) : x.absValue < y.absValue := by
  have hx := x.magnitude_eq_fields
  have hy := y.magnitude_eq_fields
  have hxLeast := x.neg_1074_le_exponent
  have hyLeast := y.neg_1074_le_exponent
  have hxLt := x.significand_lt
  unfold absValue
  rcases lt_or_ge x.exponent y.exponent with hlt | hge
  · -- a greater exponent belongs to a normal double
    have hnormal : 2 ^ 52 ≤ y.significand := y.normal_or_least.resolve_left (by omega)
    calc (x.significand : ℚ) * 2 ^ x.exponent
        < 2 ^ 53 * 2 ^ x.exponent := by
          have : (x.significand : ℚ) < 2 ^ 53 := by exact_mod_cast hxLt
          gcongr
      _ = 2 ^ 52 * 2 ^ (x.exponent + 1) := by
          rw [zpow_add₀ two_ne_zero]
          ring
      _ ≤ 2 ^ 52 * 2 ^ y.exponent := by
          gcongr
          · norm_num
          · omega
      _ ≤ y.significand * 2 ^ y.exponent := by
          have : (2 : ℚ) ^ 52 ≤ y.significand := by exact_mod_cast hnormal
          gcongr
  · -- the exponents cannot be the other way round, so the significands decide
    have hnormal := x.normal_or_least
    have hyLt := y.significand_lt
    have hexponent : x.exponent = y.exponent := by omega
    have hsignificand : (x.significand : ℚ) < y.significand := by
      exact_mod_cast (show x.significand < y.significand by omega)
    rw [hexponent]
    exact mul_lt_mul_of_pos_right hsignificand (by positivity)

theorem magnitude_eq_of_absValue_eq (h : x.absValue = y.absValue) : x.magnitude = y.magnitude := by
  rcases Nat.lt_trichotomy x.magnitude y.magnitude with hlt | heq | hgt
  · exact absurd h (absValue_lt_absValue hlt).ne
  · exact heq
  · exact absurd h (absValue_lt_absValue hgt).ne'

theorem significand_congr (h : x.magnitude = y.magnitude) : x.significand = y.significand := by
  unfold significand exponentField
  rw [h]

theorem absValue_congr (h : x.magnitude = y.magnitude) : x.absValue = y.absValue := by
  unfold absValue exponent exponentField
  rw [significand_congr h, h]

theorem absValue_le_absValue (h : x.magnitude ≤ y.magnitude) : x.absValue ≤ y.absValue := by
  rcases Nat.lt_or_eq_of_le h with hlt | heq
  · exact (absValue_lt_absValue hlt).le
  · exact (absValue_congr heq).le

theorem absValue_infinity (h : x.magnitude = infinityMagnitude) : x.absValue = 2 ^ (1024 : ℤ) := by
  have hfields : x.magnitude = ((972 : ℤ) + 1074).toNat * 2 ^ 52 + 2 ^ 52 := h
  rw [absValue_eq (by norm_num) (by norm_num) (.inr (Nat.le_refl _)) hfields, Nat.cast_pow,
    Nat.cast_ofNat, ← zpow_natCast, ← zpow_add₀ two_ne_zero]
  norm_num

theorem magnitude_negate (x : Double) : x.negate.magnitude = x.magnitude :=
  magnitude_ofMagnitude _ x.magnitude_lt

theorem signBit_negate (x : Double) : x.negate.signBit = !x.signBit :=
  signBit_ofMagnitude _ x.magnitude_lt

theorem value_negate (x : Double) : x.negate.value = -x.value := by
  unfold value
  rw [signBit_negate, absValue_congr x.magnitude_negate]
  cases x.signBit with
  | false => rfl
  | true => exact (neg_neg _).symm

theorem isNaN_negate (x : Double) : x.negate.isNaN = x.isNaN := by
  unfold isNaN
  rw [magnitude_negate]

theorem negate_negate (x : Double) : x.negate.negate = x := by
  rw [negate, signBit_negate, magnitude_negate, Bool.not_not, ofMagnitude_self]

theorem value_zero : (ofMagnitude false 0).value = 0 := by
  simp [value, absValue, significand, exponentField, magnitude, ofMagnitude]

/-! ## Rounding to whole numbers

Rounding a quotient to a whole number gives one that no other is nearer to, and of two that are as
near the even one. -/

/-- A rounded quotient is off by a half at most, and only an even one by a half. -/
theorem roundHalfEven_near (num : ℕ) {den : ℕ} (hden : 0 < den) :
    |(num : ℚ) / den - roundHalfEven num den| ≤ 1 / 2
      ∧ (|(num : ℚ) / den - roundHalfEven num den| = 1 / 2 → roundHalfEven num den % 2 = 0) := by
  have hden' : (0 : ℚ) < den := by exact_mod_cast hden
  have hsplit : (num : ℚ) / den = (num / den : ℕ) + ((num % den : ℕ) : ℚ) / den := by
    rw [eq_comm, ← eq_sub_iff_add_eq', div_sub' hden'.ne', div_left_inj' hden'.ne']
    have hnum : (num : ℚ) = den * (num / den : ℕ) + (num % den : ℕ) := by
      exact_mod_cast (Nat.div_add_mod num den).symm
    linarith
  have hrest : ((num % den : ℕ) : ℚ) < den := by exact_mod_cast Nat.mod_lt num hden
  have hhalf : ∀ {a : ℚ}, a / den = 1 / 2 ↔ 2 * a = den := by
    intro a
    rw [div_eq_div_iff hden'.ne' two_ne_zero, one_mul, mul_comm]
  unfold roundHalfEven
  dsimp only
  rw [hsplit]
  -- only the remainder decides from here on: twice it is compared with the divisor
  generalize num / den = quotient
  generalize num % den = rest at hrest
  split
  · next hdown =>
    have hle : 2 * (rest : ℚ) ≤ den := by
      exact_mod_cast (show 2 * rest ≤ den by omega)
    have hoff : |(quotient : ℚ) + rest / den - quotient| = rest / den := by
      rw [add_sub_cancel_left, abs_of_nonneg (by positivity)]
    rw [hoff, div_le_div_iff₀ hden' two_pos, hhalf]
    refine ⟨by linarith, fun heq => ?_⟩
    have : 2 * rest = den := by exact_mod_cast heq
    omega
  · next hup =>
    have hle : (den : ℚ) ≤ 2 * rest := by
      exact_mod_cast (show den ≤ 2 * rest by omega)
    have hoff : |(quotient : ℚ) + rest / den - (quotient + 1 : ℕ)| = (den - rest) / den := by
      rw [Nat.cast_succ, add_sub_add_left_eq_sub, abs_sub_comm, sub_div, div_self hden'.ne',
        abs_of_nonneg]
      rw [sub_nonneg, div_le_one hden']
      exact hrest.le
    rw [hoff, div_le_div_iff₀ hden' two_pos, hhalf]
    refine ⟨by linarith, fun heq => ?_⟩
    have : 2 * (rest : ℚ) = den := by linarith
    have : 2 * rest = den := by exact_mod_cast this
    omega

/-- What is off by a half at most is a nearest whole number. -/
theorem nearest_of_near {t : ℚ} {m : ℕ} (hnear : |t - m| ≤ 1 / 2)
    (heven : |t - m| = 1 / 2 → m % 2 = 0) (k : ℕ) :
    |t - m| ≤ |t - k| ∧ (k ≠ m → |t - m| = |t - k| → m % 2 = 0) := by
  by_cases heq : k = m
  · subst heq
    exact ⟨le_rfl, fun hne => absurd rfl hne⟩
  · have hapart : (1 : ℚ) ≤ |(k : ℚ) - m| := by
      have : (1 : ℤ) ≤ |(k : ℤ) - m| := Int.one_le_abs (by omega)
      exact_mod_cast this
    have htriangle := abs_sub_le (k : ℚ) t m
    rw [abs_sub_comm (k : ℚ) t] at htriangle
    exact ⟨by linarith, fun _ htie => heven (by linarith)⟩

/-! ## Rounding to doubles

In units of the last place a quotient is rounded to a whole number. Doubles further out have greater
units, and those further in smaller ones; that none of them is nearer is the point of
`nearest_of_fields`. -/

/-- How a quotient is rounded: in units of `2 ^ q`, where `q` is the exponent of its binade or the
least there is, it goes to the nearest whole number. -/
theorem exists_fields {num den : ℕ} (hnum : 0 < num) (hden : 0 < den) :
    ∃ (q : ℤ) (m : ℕ), -1074 ≤ q ∧ m ≤ 2 ^ 53
      ∧ ((num : ℚ) / den < 2 ^ (1024 : ℤ) ↔ q ≤ 971)
      ∧ (q = -1074 ∨ 2 ^ 52 ≤ m ∧ (2 : ℚ) ^ 52 ≤ (num : ℚ) / den * 2 ^ (-q))
      ∧ |(num : ℚ) / den * 2 ^ (-q) - m| ≤ 1 / 2
      ∧ (|(num : ℚ) / den * 2 ^ (-q) - m| = 1 / 2 → m % 2 = 0)
      ∧ magnitudeOfRatio num den = min ((q + 1074).toNat * 2 ^ 52 + m) infinityMagnitude := by
  have hratio : (0 : ℚ) < (num : ℚ) / den := by positivity
  have hlow := Int.zpow_log_le_self (b := 2) one_lt_two hratio
  have hhigh := Int.lt_zpow_succ_log_self (b := 2) one_lt_two ((num : ℚ) / den)
  rw [Nat.cast_ofNat] at hlow hhigh
  have hlog := Int.lt_zpow_iff_log_lt (b := 2) one_lt_two hratio (x := 1024)
  rw [Nat.cast_ofNat] at hlog
  set r : ℚ := (num : ℚ) / den with hr
  -- the scale puts the ratio between `2 ^ 52` and `2 ^ 53` units, but never below the scale of the
  -- subnormals
  obtain ⟨q, hq⟩ : ∃ q, q = max (Int.log 2 r - 52) (-1074) := ⟨_, rfl⟩
  have hshift := ratio_shift two_pos num den q
  rw [Nat.cast_ofNat, ← hr] at hshift
  obtain ⟨hnear, heven⟩ := roundHalfEven_near (num * 2 ^ (-q).toNat)
    (show 0 < den * 2 ^ q.toNat by positivity)
  rw [hshift] at hnear heven
  obtain ⟨m, hm⟩ : ∃ m, m = roundHalfEven (num * 2 ^ (-q).toNat) (den * 2 ^ q.toNat) := ⟨_, rfl⟩
  rw [← hm] at hnear heven
  obtain ⟨hbelow, habove⟩ := abs_le.mp hnear
  -- rounding may carry into `2 ^ 53`, which the magnitude reads as the next binade
  have hupper : r * 2 ^ (-q) < 2 ^ 53 := by
    calc r * 2 ^ (-q) < 2 ^ (Int.log 2 r + 1) * 2 ^ (-q) := by gcongr
      _ = 2 ^ (Int.log 2 r + 1 - q) := by rw [← zpow_add₀ two_ne_zero, sub_eq_add_neg]
      _ ≤ 2 ^ (53 : ℤ) := zpow_le_zpow_right₀ one_le_two (by omega)
      _ = 2 ^ 53 := by norm_num
  have hlower : q = -1074 ∨ (2 : ℚ) ^ 52 ≤ r * 2 ^ (-q) := by
    refine or_iff_not_imp_left.mpr fun hleast => ?_
    calc (2 : ℚ) ^ 52 = 2 ^ (Int.log 2 r - q) := by
          rw [show Int.log 2 r - q = (52 : ℕ) by omega, zpow_natCast]
      _ = 2 ^ Int.log 2 r * 2 ^ (-q) := by rw [← zpow_add₀ two_ne_zero, sub_eq_add_neg]
      _ ≤ r * 2 ^ (-q) := by gcongr
  have hmUpper : m ≤ 2 ^ 53 := by
    have : (m : ℚ) < 2 ^ 53 + 1 := by linarith
    exact_mod_cast Nat.lt_succ_iff.mp (by exact_mod_cast this)
  refine ⟨q, m, by omega, hmUpper, hlog.trans (by omega),
    hlower.imp_right fun hbinade => ⟨?_, hbinade⟩, hnear, heven, ?_⟩
  · have : (2 : ℚ) ^ 52 < m + 1 := by linarith
    exact Nat.lt_succ_iff.mp (by exact_mod_cast this)
  · rw [magnitudeOfRatio, if_neg hnum.ne']
    simp only [Nat.pow_eq]
    rw [floorLog2_eq hnum hden, ← hr, ← hq, ← hm]

/-- A number that is rounded to a whole number of its units is rounded to a nearest double. -/
theorem nearest_of_fields {r : ℚ} {q : ℤ} {m : ℕ} (hq : -1074 ≤ q) (hm : m ≤ 2 ^ 53)
    (hbinade : q = -1074 ∨ 2 ^ 52 ≤ m ∧ (2 : ℚ) ^ 52 ≤ r * 2 ^ (-q))
    (hnear : |r * 2 ^ (-q) - m| ≤ 1 / 2) (heven : |r * 2 ^ (-q) - m| = 1 / 2 → m % 2 = 0)
    (hx : x.magnitude = (q + 1074).toNat * 2 ^ 52 + m) (y : Double) :
    |r - x.absValue| ≤ |r - y.absValue|
      ∧ (y.absValue ≠ x.absValue → |r - x.absValue| = |r - y.absValue| →
          x.significand % 2 = 0) := by
  have hunit : (0 : ℚ) < 2 ^ q := by positivity
  -- distances to `r` are measured in units of `2 ^ q`, the step between doubles here
  have hscale : ∀ a : ℚ, |r - a * 2 ^ q| = |r * 2 ^ (-q) - a| * 2 ^ q := by
    intro a
    rw [← abs_of_pos hunit, ← abs_mul, abs_of_pos hunit, sub_mul, mul_assoc,
      ← zpow_add₀ two_ne_zero, neg_add_cancel, zpow_zero, mul_one]
  have hparity : x.significand % 2 = m % 2 := by
    rw [significand_mod_two, hx]
    omega
  rw [absValue_eq hq hm (hbinade.imp_right And.left) hx, hscale, hparity]
  rcases le_or_gt q y.exponent with hcoarse | hfine
  · -- the other double is a whole number of units
    obtain ⟨k, hk⟩ : ∃ k : ℕ, y.absValue = k * 2 ^ q := by
      refine ⟨y.significand * 2 ^ (y.exponent - q).toNat, ?_⟩
      have hexponent : y.exponent = ((y.exponent - q).toNat : ℤ) + q := by omega
      rw [absValue, hexponent, zpow_add₀ two_ne_zero, zpow_natCast, ← hexponent]
      push_cast
      ring
    obtain ⟨hle, htie⟩ := nearest_of_near hnear heven k
    rw [hk, hscale]
    refine ⟨mul_le_mul_of_nonneg_right hle hunit.le, fun hne heq => htie ?_ ?_⟩
    · rintro rfl
      exact hne rfl
    · exact mul_right_cancel₀ hunit.ne' heq
  · -- the other double is below the binade, and the lowest of the binade is nearer
    have hbelow : y.absValue < 2 ^ 52 * 2 ^ q := by
      calc y.absValue < 2 ^ 53 * 2 ^ y.exponent := by
            have : (y.significand : ℚ) < 2 ^ 53 := by exact_mod_cast y.significand_lt
            unfold absValue
            gcongr
        _ ≤ 2 ^ 53 * 2 ^ (q - 1) := by
            gcongr
            · norm_num
            · omega
        _ = 2 ^ 52 * 2 ^ q := by
            rw [zpow_sub₀ two_ne_zero]
            ring
    have hleast := y.neg_1074_le_exponent
    obtain ⟨-, hlow⟩ := hbinade.resolve_left (by omega)
    obtain ⟨hle, -⟩ := nearest_of_near hnear heven (2 ^ 52)
    have hstrict : |r * 2 ^ (-q) - m| * 2 ^ q < |r - y.absValue| := by
      have hr : r = r * 2 ^ (-q) * 2 ^ q := by
        rw [mul_assoc, ← zpow_add₀ two_ne_zero, neg_add_cancel, zpow_zero, mul_one]
      rw [Nat.cast_pow, Nat.cast_ofNat, abs_of_nonneg (sub_nonneg.mpr hlow)] at hle
      calc |r * 2 ^ (-q) - m| * 2 ^ q ≤ (r * 2 ^ (-q) - 2 ^ 52) * 2 ^ q := by gcongr
        _ = r - 2 ^ 52 * 2 ^ q := by rw [sub_mul, ← hr]
        _ < r - y.absValue := by linarith
        _ ≤ |r - y.absValue| := le_abs_self _
    exact ⟨hstrict.le, fun _ heq => absurd heq hstrict.ne⟩

/-- For a positive number, doubles without a sign are all that matters. -/
theorem roundsTo_of_absValue {r : ℚ} (hr : 0 < r) (hsign : x.signBit = false)
    (hnumber : x.isNaN = false)
    (h : ∀ y : Double, y.isNaN = false → |r - x.absValue| ≤ |r - y.absValue|
      ∧ (y.absValue ≠ x.absValue → |r - x.absValue| = |r - y.absValue| →
          x.significand % 2 = 0)) : RoundsTo r x := by
  have hx : x.value = x.absValue := by rw [value, hsign, if_neg Bool.false_ne_true]
  have hfar : ∀ y : Double, |r - y.absValue| ≤ |r - y.value| := by
    intro y
    rw [← abs_value]
    exact (abs_abs_sub_abs_le r y.value).trans_eq' (by rw [abs_of_pos hr])
  refine ⟨hnumber, fun y hy => ?_, fun y hy hne htie => ?_⟩
  · rw [hx]
    exact (h y hy).1.trans (hfar y)
  · rw [hx] at hne htie
    have htie' : |r - x.absValue| = |r - y.absValue| :=
      le_antisymm (h y hy).1 ((hfar y).trans_eq htie.symm)
    refine (h y hy).2 (fun hsame => hne ?_) htie'
    -- a positive number is as near to a double as to its negation only if that is zero
    have hyValue : y.value = -y.absValue := by
      unfold value at hne ⊢
      split at hne
      · next hsigned => rw [if_pos hsigned]
      · exact absurd hsame hne
    have hnonneg := x.absValue_nonneg
    rw [hyValue, hsame] at htie ⊢
    rw [sub_neg_eq_add, abs_of_nonneg (add_nonneg hr.le hnonneg)] at htie
    rcases abs_cases (r - x.absValue) with ⟨heq, -⟩ | ⟨heq, -⟩ <;> linarith

theorem magnitudeOfRatio_le (num den : ℕ) : magnitudeOfRatio num den ≤ infinityMagnitude := by
  unfold magnitudeOfRatio
  split
  · exact Nat.zero_le _
  · exact min_le_right _ _

theorem magnitudeOfRatio_lt (num den : ℕ) : magnitudeOfRatio num den < 2 ^ 63 :=
  (magnitudeOfRatio_le num den).trans_lt (by decide)

theorem roundsTo_zero : RoundsTo 0 (ofMagnitude false 0) := by
  refine ⟨by decide, fun y _ => ?_, fun y _ hne htie => absurd ?_ hne⟩
  · rw [value_zero, sub_zero, abs_zero]
    exact abs_nonneg _
  · rw [value_zero, sub_zero, abs_zero, zero_sub, abs_neg, eq_comm, abs_eq_zero] at htie
    rw [value_zero, htie]

/-- **Rounding finds the nearest double.** -/
theorem roundsTo_ratio (num : ℕ) {den : ℕ} (hden : 0 < den) :
    RoundsTo ((num : ℚ) / den) (ofMagnitude false (magnitudeOfRatio num den)) := by
  rcases Nat.eq_zero_or_pos num with rfl | hnum
  · rw [magnitudeOfRatio, if_pos rfl, Nat.cast_zero, zero_div]
    exact roundsTo_zero
  obtain ⟨q, m, hq, hm, hsmall, hbinade, hnear, heven, hmagnitude⟩ := exists_fields hnum hden
  have hinfinity : infinityMagnitude = 2047 * 2 ^ 52 := rfl
  have hself := magnitude_ofMagnitude false (magnitudeOfRatio_lt num den)
  refine roundsTo_of_absValue (by positivity)
    (signBit_ofMagnitude false (magnitudeOfRatio_lt num den))
    (isNaN_eq_false_iff.mpr (hself.trans_le (magnitudeOfRatio_le num den))) fun y hy => ?_
  by_cases hless : (num : ℚ) / den < 2 ^ (1024 : ℤ)
  · -- below the limit the fields are those of a finite double, and it is the nearest
    have hexponent := hsmall.mp hless
    refine nearest_of_fields hq hm hbinade hnear heven ?_ y
    rw [hself, hmagnitude, min_eq_left]
    omega
  · -- no double is above infinity, and the number is not below it
    have hexponent : ¬ q ≤ 971 := fun hle => hless (hsmall.mpr hle)
    obtain ⟨hnormal, -⟩ := hbinade.resolve_left (by omega)
    rw [min_eq_right (by omega)] at hmagnitude
    have hvalue := absValue_infinity (hself.trans hmagnitude)
    have hlarge := not_lt.mp hless
    have hle :=
      absValue_le_absValue ((isNaN_eq_false_iff.mp hy).trans_eq (hself.trans hmagnitude).symm)
    rw [hvalue] at hle ⊢
    rw [abs_of_nonneg (sub_nonneg.mpr hlarge), abs_of_nonneg (sub_nonneg.mpr (hle.trans hlarge))]
    exact ⟨by linarith, fun hne htie => absurd (by linarith) hne⟩

theorem RoundsTo.negate {r : ℚ} (h : RoundsTo r x) : RoundsTo (-r) x.negate := by
  have hdistance : ∀ y : Double, |-r - y.value| = |r - y.negate.value| := by
    intro y
    rw [value_negate, ← abs_neg]
    congr 1
    ring
  have hself : |-r - x.negate.value| = |r - x.value| := by
    rw [hdistance, value_negate, value_negate, neg_neg]
  refine ⟨by rw [isNaN_negate, h.number], fun y hy => ?_, fun y hy hne htie => ?_⟩
  · rw [hself, hdistance]
    exact h.nearest _ (by rw [isNaN_negate, hy])
  · rw [significand_congr x.magnitude_negate]
    rw [hself, hdistance] at htie
    refine h.even _ (by rw [isNaN_negate, hy]) (fun heq => hne ?_) htie
    rw [value_negate, ← heq, value_negate, neg_neg]

/-! ## One value only

If two doubles are as near, the number lies half-way between them, so they are neighbours: any
double between them would be nearer. Of neighbours one significand is even and the other odd. -/

/-- Between two magnitudes of even significands there is another. -/
theorem exists_absValue_between (hy : y.isNaN = false) (hxEven : x.significand % 2 = 0)
    (hyEven : y.significand % 2 = 0) (h : x.absValue < y.absValue) :
    ∃ z : Double, z.isNaN = false ∧ z.signBit = false
      ∧ x.absValue < z.absValue ∧ z.absValue < y.absValue := by
  have hlt : x.magnitude < y.magnitude :=
    Nat.lt_of_not_le fun hle => absurd h (not_lt.mpr (absValue_le_absValue hle))
  rw [significand_mod_two] at hxEven hyEven
  have hfits : x.magnitude + 1 < 2 ^ 63 := by
    have := y.magnitude_lt
    omega
  have hself := magnitude_ofMagnitude false hfits
  refine ⟨ofMagnitude false (x.magnitude + 1), ?_, signBit_ofMagnitude false hfits,
    absValue_lt_absValue (by omega), absValue_lt_absValue (by omega)⟩
  have := isNaN_eq_false_iff.mp hy
  exact isNaN_eq_false_iff.mpr (by omega)

theorem value_of_nonneg (h : 0 ≤ x.value) : x.value = x.absValue := by
  rw [← abs_value, abs_of_nonneg h]

theorem value_of_nonpos (h : x.value ≤ 0) : x.value = -x.absValue := by
  rw [← abs_value, abs_of_nonpos h, neg_neg]

/-- Between two doubles of even significands there is another. -/
theorem exists_between (hx : x.isNaN = false) (hy : y.isNaN = false)
    (hxEven : x.significand % 2 = 0) (hyEven : y.significand % 2 = 0) (h : x.value < y.value) :
    ∃ z : Double, z.isNaN = false ∧ x.value < z.value ∧ z.value < y.value := by
  rcases le_or_gt 0 x.value with hnonneg | hneg
  · have hyNonneg := hnonneg.trans h.le
    rw [value_of_nonneg hnonneg, value_of_nonneg hyNonneg] at h ⊢
    obtain ⟨z, hz, hsign, hxz, hzy⟩ := exists_absValue_between hy hxEven hyEven h
    have hvalue : z.value = z.absValue := by rw [value, hsign, if_neg Bool.false_ne_true]
    exact ⟨z, hz, hvalue ▸ hxz, hvalue ▸ hzy⟩
  rcases le_or_gt y.value 0 with hnonpos | hpos
  · rw [value_of_nonpos hneg.le, value_of_nonpos hnonpos] at h ⊢
    obtain ⟨z, hz, hsign, hyz, hzx⟩ :=
      exists_absValue_between hx hyEven hxEven (neg_lt_neg_iff.mp h)
    have hvalue : z.negate.value = -z.absValue := by
      rw [value_negate, value, hsign, if_neg Bool.false_ne_true]
    refine ⟨z.negate, by rw [isNaN_negate, hz], ?_, ?_⟩
    · rw [hvalue]
      exact neg_lt_neg hzx
    · rw [hvalue]
      exact neg_lt_neg hyz
  · exact ⟨ofMagnitude false 0, by decide, by rwa [value_zero], by rwa [value_zero]⟩

/-- **A rational rounds to one value only.** -/
theorem RoundsTo.value_eq {r : ℚ} (hx : RoundsTo r x) (hy : RoundsTo r y) : x.value = y.value := by
  by_contra hne
  have htie : |r - x.value| = |r - y.value| :=
    le_antisymm (hx.nearest y hy.number) (hy.nearest x hx.number)
  have hxEven := hx.even y hy.number (Ne.symm hne) htie
  have hyEven := hy.even x hx.number hne htie.symm
  -- the number lies halfway, and what is between the two is nearer
  have hcloser : ∀ {a b c : ℚ}, |r - a| = |r - b| → a < c → c < b → |r - c| < |r - a| := by
    intro a b c heq hac hcb
    have hhalf : r - a = b - r := by
      rcases abs_eq_abs.mp heq with hsame | hopposite
      · linarith
      · linarith
    have hpos : 0 < r - a := by linarith
    rw [abs_of_pos hpos, abs_lt]
    constructor <;> linarith
  rcases lt_or_gt_of_ne hne with hlt | hgt
  · obtain ⟨z, hz, hxz, hzy⟩ := exists_between hx.number hy.number hxEven hyEven hlt
    exact absurd (hx.nearest z hz) (not_le.mpr (hcloser htie hxz hzy))
  · obtain ⟨z, hz, hyz, hzx⟩ := exists_between hy.number hx.number hyEven hxEven hgt
    exact absurd (hy.nearest z hz) (not_le.mpr (hcloser htie.symm hyz hzx))

theorem absValue_pos (h : x.isZero = false) : 0 < x.absValue := by
  have := significand_pos h
  unfold absValue
  positivity

/-- Doubles other than zero are known by their values. -/
theorem eq_of_value_eq (hzero : x.isZero = false) (h : x.value = y.value) : x = y := by
  have habs : x.absValue = y.absValue := by rw [← abs_value, ← abs_value, h]
  have hpos := absValue_pos hzero
  have hsign : x.signBit = y.signBit := by
    unfold value at h
    rw [← habs] at h
    cases hx : x.signBit <;> cases hy : y.signBit <;> simp [hx, hy] at h ⊢ <;> linarith
  rw [← ofMagnitude_self x, ← ofMagnitude_self y, hsign, magnitude_eq_of_absValue_eq habs]

/-! ## Between a number and its rounding

Moving a number towards the double that it rounds to makes the distance to that double smaller, and
by as much as that to any other can get smaller. -/

/-- What lies between a number and the double that it rounds to rounds there too. -/
theorem RoundsTo.between {r s : ℚ} (h : RoundsTo r x)
    (hs : r ≤ s ∧ s ≤ x.value ∨ x.value ≤ s ∧ s ≤ r) : RoundsTo s x := by
  have hthrough : |r - x.value| = |r - s| + |s - x.value| := by
    rcases hs with ⟨hrs, hsx⟩ | ⟨hxs, hsr⟩
    · rw [abs_of_nonpos (by linarith), abs_of_nonpos (by linarith), abs_of_nonpos (by linarith)]
      ring
    · rw [abs_of_nonneg (by linarith), abs_of_nonneg (by linarith), abs_of_nonneg (by linarith)]
      ring
  have haround : ∀ y : Double, |r - y.value| ≤ |r - s| + |s - y.value| :=
    fun y => abs_sub_le r s y.value
  refine ⟨h.number, fun y hy => ?_, fun y hy hne htie => h.even y hy hne ?_⟩
  · have hnearest := h.nearest y hy
    have := haround y
    linarith
  · have hnearest := h.nearest y hy
    have := haround y
    linarith

end ArithScript.Double
