import ArithScript.Double
import Mathlib.Algebra.Order.Field.Power
import Mathlib.Algebra.Order.Floor.Semifield
import Mathlib.Data.Int.Log
import Mathlib.Data.Rat.Floor
import Mathlib.Tactic.FieldSimp
import Mathlib.Tactic.Linarith
import Mathlib.Tactic.NormNum
import Mathlib.Tactic.Positivity
import Mathlib.Tactic.Ring

/-!
# Rounding to doubles

`Double.magnitudeOfRatio` works on numerators and denominators; here it is read as what it means,
the rounding of a rational. The one lemma that others use is `magnitudeOfRatio_eq`: a rational that
is less than half a unit away from `m * 2 ^ q` rounds to it, provided that `q` is the exponent of
its own binade, or the least there is. The proviso matters at powers of two, where the unit below is
half the unit above.

Only the value of a quotient counts, not its terms (`magnitudeOfRatio_congr`).
-/

set_option autoImplicit false

namespace ArithScript.Double

/-! ## Logarithms

The exponent of a quotient is found by comparing it with powers of two. The comparisons are done on
natural numbers, and mean what they should on rationals. -/

theorem log_eq_of_bounds {b : ℕ} (hb : 1 < b) {r : ℚ} {e : ℤ} (hlow : (b : ℚ) ^ e ≤ r)
    (hhigh : r < (b : ℚ) ^ (e + 1)) : Int.log b r = e := by
  have hpos : 0 < r := lt_of_lt_of_le (zpow_pos (by positivity) e) hlow
  have hle := (Int.zpow_le_iff_le_log hb hpos).mp hlow
  have hlt := (Int.lt_zpow_iff_log_lt hb hpos).mp hhigh
  omega

/-- Shifting a quotient by a power of `b`, whichever of its two numbers is multiplied. -/
theorem ratio_shift {b : ℕ} (hb : 0 < b) (num den : ℕ) (q : ℤ) :
    ((num * b ^ (-q).toNat : ℕ) : ℚ) / ((den * b ^ q.toNat : ℕ) : ℚ)
      = (num : ℚ) / den * (b : ℚ) ^ (-q) := by
  have hb' : (b : ℚ) ≠ 0 := by positivity
  obtain ⟨n, rfl | rfl⟩ := q.eq_nat_or_neg
  · simp only [Int.toNat_neg_natCast, pow_zero, mul_one, Int.toNat_natCast, Nat.cast_mul,
      Nat.cast_pow, zpow_neg, zpow_natCast]
    rw [div_mul_eq_div_div, div_eq_mul_inv _ ((b : ℚ) ^ n)]
  · simp only [neg_neg, Int.toNat_natCast, Int.toNat_neg_natCast, pow_zero, mul_one, Nat.cast_mul,
      Nat.cast_pow, zpow_natCast]
    ring

/-- A power of `b` is compared with a quotient in whole numbers. -/
theorem zpow_le_ratio_iff {b : ℕ} (hb : 0 < b) {num den : ℕ} (hden : 0 < den) (e : ℤ) :
    (b : ℚ) ^ e ≤ (num : ℚ) / den ↔ den * b ^ e.toNat ≤ num * b ^ (-e).toNat := by
  have hb' : (0 : ℚ) < b := by positivity
  have hbottom : (0 : ℚ) < ((den * b ^ e.toNat : ℕ) : ℚ) := by positivity
  rw [← Nat.cast_le (α := ℚ), ← one_le_div hbottom, ratio_shift hb, zpow_neg,
    ← div_eq_mul_inv, one_le_div (zpow_pos hb' e)]

/-- The binary logarithms of two numbers bound that of their quotient to one of two values. -/
theorem ratio_bounds {num den : ℕ} (hnum : 0 < num) (hden : 0 < den) :
    (2 : ℚ) ^ ((num.log2 : ℤ) - den.log2 - 1) ≤ (num : ℚ) / den
      ∧ (num : ℚ) / den < (2 : ℚ) ^ ((num.log2 : ℤ) - den.log2 + 1) := by
  have hnumLow : ((2 : ℚ) ^ num.log2) ≤ num := by
    exact_mod_cast Nat.log2_self_le (Nat.ne_of_gt hnum)
  have hnumHigh : (num : ℚ) < 2 ^ (num.log2 + 1) := by exact_mod_cast Nat.lt_log2_self
  have hdenLow : ((2 : ℚ) ^ den.log2) ≤ den := by
    exact_mod_cast Nat.log2_self_le (Nat.ne_of_gt hden)
  have hdenHigh : (den : ℚ) < 2 ^ (den.log2 + 1) := by exact_mod_cast Nat.lt_log2_self
  have hden' : (0 : ℚ) < den := by positivity
  constructor
  · rw [le_div_iff₀ hden']
    calc (2 : ℚ) ^ ((num.log2 : ℤ) - den.log2 - 1) * den
        ≤ (2 : ℚ) ^ ((num.log2 : ℤ) - den.log2 - 1) * 2 ^ (den.log2 + 1) := by gcongr
      _ = 2 ^ num.log2 := by
        rw [← zpow_natCast, ← zpow_natCast, ← zpow_add₀ two_ne_zero]
        congr 1
        push_cast
        ring
      _ ≤ num := hnumLow
  · rw [div_lt_iff₀ hden']
    calc (num : ℚ) < 2 ^ (num.log2 + 1) := hnumHigh
      _ = (2 : ℚ) ^ ((num.log2 : ℤ) - den.log2 + 1) * 2 ^ den.log2 := by
        rw [← zpow_natCast, ← zpow_natCast, ← zpow_add₀ two_ne_zero]
        congr 1
        push_cast
        ring
      _ ≤ (2 : ℚ) ^ ((num.log2 : ℤ) - den.log2 + 1) * den := by gcongr

theorem floorLog2_eq {num den : ℕ} (hnum : 0 < num) (hden : 0 < den) :
    floorLog2 num den = Int.log 2 ((num : ℚ) / den) := by
  obtain ⟨hlow, hhigh⟩ := ratio_bounds hnum hden
  have hestimate := @zpow_le_ratio_iff 2 two_pos num den hden ((num.log2 : ℤ) - den.log2)
  unfold floorLog2
  dsimp only
  split
  · next hle => exact (log_eq_of_bounds one_lt_two (hestimate.mpr hle) hhigh).symm
  · next hlt =>
    refine (log_eq_of_bounds one_lt_two hlow ?_).symm
    rw [sub_add_cancel]
    exact not_le.mp fun hle => hlt (hestimate.mp hle)

/-! ## Rounding to whole numbers

Half-way cases go to the even number. What is used here are the cases in which nothing is half-way:
less than half a unit from a whole number there is no other choice. -/

/-- What is less than a half away from a whole number rounds to it. -/
theorem roundHalfEven_eq {num den m : ℕ} (hlow : 2 * (m * den) < 2 * num + den)
    (hhigh : 2 * num < 2 * (m * den) + den) : roundHalfEven num den = m := by
  have hden : 0 < den := by omega
  unfold roundHalfEven
  dsimp only
  -- from above the quotient is `m` and the rest is small, from below it is one less and the rest is
  -- large
  by_cases habove : m * den ≤ num
  · have hdiv : num / den = m := by
      refine Nat.div_eq_of_lt_le habove ?_
      rw [Nat.succ_mul]
      omega
    have hmod : num % den = num - m * den := by
      have := Nat.div_add_mod num den
      rw [hdiv, Nat.mul_comm] at this
      omega
    rw [if_pos (.inl (by omega)), hdiv]
  · obtain ⟨k, rfl⟩ : ∃ k, m = k + 1 := by
      refine ⟨m - 1, ?_⟩
      have : m ≠ 0 := by
        rintro rfl
        omega
      omega
    rw [Nat.add_mul, Nat.one_mul] at hlow hhigh habove
    have hdiv : num / den = k := Nat.div_eq_of_lt_le (by omega) (by rw [Nat.succ_mul]; omega)
    have hmod : num % den = num - k * den := by
      have := Nat.div_add_mod num den
      rw [hdiv, Nat.mul_comm] at this
      omega
    rw [if_neg (by omega), hdiv]

theorem roundHalfEven_eq_of_ratio {num den m : ℕ} (hden : 0 < den)
    (hlow : (m : ℚ) - 1 / 2 < (num : ℚ) / den) (hhigh : (num : ℚ) / den < (m : ℚ) + 1 / 2) :
    roundHalfEven num den = m := by
  have hden' : (0 : ℚ) < den := by positivity
  rw [lt_div_iff₀ hden'] at hlow
  rw [div_lt_iff₀ hden'] at hhigh
  refine roundHalfEven_eq ?_ ?_
  · have : (2 : ℚ) * (m * den) < 2 * num + den := by linarith
    exact_mod_cast this
  · have : (2 : ℚ) * num < 2 * (m * den) + den := by linarith
    exact_mod_cast this

/-- Rounding depends on the value of a quotient only. -/
theorem roundHalfEven_mul {k : ℕ} (hk : 0 < k) (num den : ℕ) :
    roundHalfEven (k * num) (k * den) = roundHalfEven num den := by
  unfold roundHalfEven
  dsimp only
  rw [Nat.mul_div_mul_left _ _ hk, Nat.mul_mod_mul_left]
  have hlt : 2 * (k * (num % den)) < k * den ↔ 2 * (num % den) < den := by
    rw [Nat.mul_left_comm]
    exact Nat.mul_lt_mul_left hk
  have heq : 2 * (k * (num % den)) = k * den ↔ 2 * (num % den) = den := by
    rw [Nat.mul_left_comm]
    exact Nat.mul_right_inj (Nat.ne_of_gt hk)
  simp only [hlt, heq]

/-! ## Rounding to magnitudes

A magnitude is a double without its sign, as a number: the exponent field above the significand
field. Rounding a significand up to the next power of two carries into the exponent, which is why
one number for both is convenient. -/

/-- **What is less than half a unit away from a number rounds to it**, where the unit is the power
`2 ^ q` of its binade, or the least there is. -/
theorem magnitudeOfRatio_eq {num den : ℕ} (hnum : 0 < num) (hden : 0 < den) {q : ℤ} {m : ℕ}
    (hq : -1074 ≤ q) (hm : m < 2 ^ 53) (hlow : (m : ℚ) - 1 / 2 < (num : ℚ) / den * 2 ^ (-q))
    (hhigh : (num : ℚ) / den * 2 ^ (-q) < (m : ℚ) + 1 / 2)
    (hbinade : q = -1074 ∨ (2 : ℚ) ^ 52 ≤ (num : ℚ) / den * 2 ^ (-q)) :
    magnitudeOfRatio num den = min ((q + 1074).toNat * 2 ^ 52 + m) infinityMagnitude := by
  have hratio : (0 : ℚ) < (num : ℚ) / den := by positivity
  have hunshift : (num : ℚ) / den = (num : ℚ) / den * 2 ^ (-q) * 2 ^ q := by
    rw [mul_assoc, ← zpow_add₀ two_ne_zero, neg_add_cancel, zpow_zero, mul_one]
  have hpow : ∀ k : ℕ, (2 : ℚ) ^ (q + k) = 2 ^ k * 2 ^ q := by
    intro k
    rw [zpow_add₀ two_ne_zero, zpow_natCast, mul_comm]
  have hq2 : (0 : ℚ) < 2 ^ q := by positivity
  -- the quotient is below `2 ^ (q + 53)`, and at least `2 ^ (q + 52)` unless `q` is the least
  have hexponent : max (floorLog2 num den - 52) (-1074) = q := by
    have hupper : (num : ℚ) / den < (2 : ℚ) ^ (q + (53 : ℕ)) := by
      have hm' : (m : ℚ) + 1 ≤ 2 ^ 53 := by exact_mod_cast hm
      rw [hunshift, hpow]
      exact mul_lt_mul_of_pos_right (by linarith) hq2
    have hlogUpper := (Int.lt_zpow_iff_log_lt one_lt_two hratio).mp hupper
    rw [floorLog2_eq hnum hden]
    rcases hbinade with rfl | hbinade
    · push_cast at hlogUpper
      omega
    · have hlower : (2 : ℚ) ^ (q + (52 : ℕ)) ≤ (num : ℚ) / den := by
        rw [hunshift, hpow]
        exact mul_le_mul_of_nonneg_right hbinade hq2.le
      have hlogLower := (Int.zpow_le_iff_le_log one_lt_two hratio).mp hlower
      push_cast at hlogUpper hlogLower
      omega
  have hround : roundHalfEven (num * 2 ^ (-q).toNat) (den * 2 ^ q.toNat) = m := by
    have hshift := ratio_shift two_pos num den q
    rw [Nat.cast_ofNat] at hshift
    rw [← hshift] at hlow hhigh
    exact roundHalfEven_eq_of_ratio (by positivity) hlow hhigh
  rw [magnitudeOfRatio, if_neg (Nat.ne_of_gt hnum)]
  simp only [Nat.pow_eq]
  rw [hexponent, hround]

/-- Quotients of the same value round to the same magnitude. -/
theorem magnitudeOfRatio_congr {num den num' den' : ℕ} (hden : 0 < den) (hden' : 0 < den')
    (heq : num * den' = num' * den) : magnitudeOfRatio num den = magnitudeOfRatio num' den' := by
  by_cases hnum : num = 0
  · subst hnum
    have hzero : num' = 0 := by
      rw [Nat.zero_mul] at heq
      exact (Nat.mul_eq_zero.mp heq.symm).resolve_right (Nat.ne_of_gt hden)
    rw [hzero, magnitudeOfRatio, magnitudeOfRatio, if_pos rfl, if_pos rfl]
  have hpos : 0 < num := Nat.pos_of_ne_zero hnum
  have hpos' : 0 < num' := by
    refine Nat.pos_of_ne_zero fun hzero => ?_
    rw [hzero, Nat.zero_mul] at heq
    exact absurd heq (Nat.mul_pos hpos hden').ne'
  have hvalue : (num : ℚ) / den = (num' : ℚ) / den' := by
    rw [div_eq_div_iff (by positivity) (by positivity)]
    exact_mod_cast heq
  -- the scale depends on the value only, and the rounding on numerator and divisor up to a common
  -- factor
  have hlog : floorLog2 num den = floorLog2 num' den' := by
    rw [floorLog2_eq hpos hden, floorLog2_eq hpos' hden', hvalue]
  have hround : ∀ a b : ℕ,
      roundHalfEven (num * a) (den * b) = roundHalfEven (num' * a) (den' * b) := by
    intro a b
    rw [← roundHalfEven_mul hden', ← roundHalfEven_mul hden (num' * a)]
    congr 1
    · rw [← Nat.mul_assoc, ← Nat.mul_assoc, Nat.mul_comm den', heq, Nat.mul_comm den]
    · rw [Nat.mul_left_comm]
  rw [magnitudeOfRatio, magnitudeOfRatio, if_neg hnum, if_neg (Nat.ne_of_gt hpos')]
  simp only [Nat.pow_eq]
  rw [hlog, hround]

/-! ## The fields of a double

A finite double is its significand times a power of two. Either the significand is as great as it
can be for its exponent, or the exponent is the least there is. -/

theorem magnitude_lt (x : Double) : x.magnitude < 2 ^ 63 := Nat.mod_lt _ (Nat.two_pow_pos 63)

theorem ofMagnitude_self (x : Double) : ofMagnitude x.signBit x.magnitude = x := by
  obtain ⟨bits⟩ := x
  have hbits : bits.toNat < 2 ^ 64 := bits.toNat_lt
  have hsplit : (if bits.toNat / 2 ^ 63 == 1 then 2 ^ 63 + bits.toNat % 2 ^ 63
      else bits.toNat % 2 ^ 63) = bits.toNat := by
    split
    · next h =>
      rw [beq_iff_eq] at h
      omega
    · next h =>
      rw [beq_iff_eq] at h
      omega
  unfold ofMagnitude signBit magnitude
  simp only [Nat.pow_eq]
  rw [hsplit, UInt64.ofNat_toNat]

theorem magnitude_ofMagnitude (negative : Bool) {m : ℕ} (hm : m < 2 ^ 63) :
    (ofMagnitude negative m).magnitude = m := by
  unfold ofMagnitude magnitude
  simp only [Nat.pow_eq]
  rw [UInt64.toNat_ofNat']
  split <;> omega

theorem signBit_ofMagnitude (negative : Bool) {m : ℕ} (hm : m < 2 ^ 63) :
    (ofMagnitude negative m).signBit = negative := by
  unfold ofMagnitude signBit
  simp only [Nat.pow_eq]
  rw [UInt64.toNat_ofNat', Bool.eq_iff_iff, beq_iff_eq]
  cases negative with
  | true => simp; omega
  | false => simp; omega

theorem neg_1074_le_exponent (x : Double) : -1074 ≤ x.exponent := by
  unfold exponent
  split <;> omega

theorem significand_lt (x : Double) : x.significand < 2 ^ 53 := by
  have hfraction : x.magnitude % 2 ^ 52 < 2 ^ 52 := Nat.mod_lt _ (by positivity)
  unfold significand
  rw [Nat.pow_eq]
  split
  · next hfield =>
    have : x.magnitude / 2 ^ 52 = 0 := hfield
    omega
  · omega

/-- A double is normal, or its exponent is the least. -/
theorem normal_or_least (x : Double) : x.exponent = -1074 ∨ 2 ^ 52 ≤ x.significand := by
  unfold exponent significand
  split
  · exact .inl rfl
  · exact .inr (Nat.le_add_right _ _)

theorem significand_pos {x : Double} (h : x.isZero = false) : 0 < x.significand := by
  have hmagnitude : x.magnitude ≠ 0 := by simpa [isZero] using h
  unfold significand
  rw [Nat.pow_eq]
  split <;> omega

/-- The magnitude is put together from exponent and significand. -/
theorem magnitude_eq_fields (x : Double) :
    (x.exponent + 1074).toNat * 2 ^ 52 + x.significand = x.magnitude := by
  have hfield : x.exponentField = x.magnitude / 2 ^ 52 := rfl
  unfold exponent significand
  rw [Nat.pow_eq]
  split
  · omega
  · omega

/-- The value of a double, sign apart. -/
theorem ratio_eq (x : Double) :
    (x.numerator : ℚ) / x.denominator = (x.significand : ℚ) * 2 ^ x.exponent := by
  have hshift := ratio_shift two_pos x.significand 1 (-x.exponent)
  rw [neg_neg, Nat.one_mul, Nat.cast_one, div_one, Nat.cast_ofNat] at hshift
  exact hshift

end ArithScript.Double
