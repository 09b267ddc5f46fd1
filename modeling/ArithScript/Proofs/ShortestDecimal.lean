import ArithScript.Decimal.Shortest
import ArithScript.Proofs.DoubleRounding

/-!
# Shortest decimals read back

`Decimal.shortest` searches grids of one to seventeen digits, and the decimal it finds has been seen
to read back. What has to be proved is that it finds one: seventeen digits always suffice
(`neighbour_reads`).

On the grid of seventeen digits the step is below `10⁻¹⁶` of the double, and the double is below
`2 ^ 53` units, so the step is less than a unit. The double lies between two neighbours of the grid,
and one of them is less than half a unit away. The upper one always reads back if it is that near.
The lower one does too, unless the double is a power of two, for there the unit is half as large
below; but then the double is `2 ^ 52` units, the step is less than half a unit, and the upper
neighbour is near enough.
-/

set_option autoImplicit false

namespace ArithScript.Decimal

open Double

/-! ## Decimal logarithms

The decade of a quotient is found by counting the digits of its whole part, or those of its inverse
if it is below one. -/

theorem digitCount_pos (n : ℕ) : 0 < digitCount n := Nat.length_toDigits_pos

theorem lt_pow_digitCount (n : ℕ) : n < 10 ^ digitCount n :=
  (Nat.length_toDigits_le_iff (by decide) (digitCount_pos n)).mp (Nat.le_refl _)

theorem pow_digitCount_le {n : ℕ} (hn : 0 < n) : 10 ^ (digitCount n - 1) ≤ n := by
  by_cases hone : digitCount n = 1
  · rw [hone]
    exact hn
  · have hcount := digitCount_pos n
    refine Nat.le_of_not_lt fun hlt => ?_
    have := (Nat.length_toDigits_le_iff (by decide) (by omega)).mpr hlt
    have : digitCount n ≤ digitCount n - 1 := this
    omega

/-- The number of digits of the whole part of a quotient that is not below one. -/
theorem ratio_digit_bounds {num den : ℕ} (hden : 0 < den) (hle : den ≤ num) :
    (10 : ℚ) ^ (digitCount (num / den) - 1) ≤ (num : ℚ) / den
      ∧ (num : ℚ) / den < (10 : ℚ) ^ digitCount (num / den) := by
  have hfloor : ⌊(num : ℚ) / den⌋₊ = num / den := Nat.floor_div_eq_div num den
  have hpos : 0 < num / den := Nat.div_pos hle hden
  have hlow : ((10 : ℚ) ^ (digitCount (num / den) - 1)) ≤ ((num / den : ℕ) : ℚ) := by
    exact_mod_cast pow_digitCount_le hpos
  have hhigh : ((num / den : ℕ) : ℚ) + 1 ≤ (10 : ℚ) ^ digitCount (num / den) := by
    exact_mod_cast lt_pow_digitCount (num / den)
  constructor
  · refine hlow.trans ?_
    rw [← hfloor]
    exact Nat.floor_le (by positivity)
  · refine lt_of_lt_of_le ?_ hhigh
    rw [← hfloor]
    exact Nat.lt_floor_add_one _

theorem floorLog10_eq {num den : ℕ} (hnum : 0 < num) (hden : 0 < den) :
    floorLog10 num den = Int.log 10 ((num : ℚ) / den) := by
  unfold floorLog10
  split
  · next hle =>
    obtain ⟨hlow, hhigh⟩ := ratio_digit_bounds hden hle
    have hcount := digitCount_pos (num / den)
    refine (log_eq_of_bounds (by decide) ?_ ?_).symm
    · rw [← Int.natCast_pred_of_pos hcount, zpow_natCast]
      exact_mod_cast hlow
    · rw [sub_add_cancel, zpow_natCast]
      exact_mod_cast hhigh
  · next hlt =>
    have hcount := digitCount_pos (den / num)
    obtain ⟨hlow, hhigh⟩ := ratio_digit_bounds hnum (Nat.le_of_not_le hlt)
    dsimp only
    generalize digitCount (den / num) = count at *
    have hinv : (num : ℚ) / den = ((den : ℚ) / num)⁻¹ := (inv_div _ _).symm
    have hpositive : (0 : ℚ) < (den : ℚ) / num := by positivity
    split
    · next heq =>
      -- The quotient is a power of ten.
      have hvalue : (den : ℚ) / num = 10 ^ (count - 1) := by
        rw [div_eq_iff (by positivity), heq, Nat.pow_eq]
        push_cast
        ring
      have hpower : (num : ℚ) / den = (10 : ℚ) ^ (1 - (count : ℤ)) := by
        rw [hinv, hvalue, ← zpow_natCast, ← zpow_neg, Int.natCast_pred_of_pos hcount, neg_sub]
      have hlog := Int.log_zpow (R := ℚ) (b := 10) (by decide) (1 - (count : ℤ))
      rw [Nat.cast_ofNat] at hlog
      rw [hpower, hlog]
    · next hne =>
      refine (log_eq_of_bounds (by decide) ?_ ?_).symm
      · rw [hinv, zpow_neg, zpow_natCast]
        exact inv_anti₀ hpositive (by exact_mod_cast hhigh.le)
      · have hstrict : (10 : ℚ) ^ (count - 1) < (den : ℚ) / num := by
          refine lt_of_le_of_ne hlow fun heq => hne ?_
          rw [eq_div_iff (by positivity)] at heq
          have : 10 ^ (count - 1) * num = den := by exact_mod_cast heq
          rw [← this, Nat.mul_comm, Nat.pow_eq]
        have hexponent : -(count : ℤ) + 1 = -((count - 1 : ℕ) : ℤ) := by
          rw [Int.natCast_pred_of_pos hcount]
          ring
        rw [hinv, hexponent, zpow_neg, zpow_natCast]
        exact inv_strictAnti₀ (by positivity) (by exact_mod_cast hstrict)

/-! ## Seventeen digits

The two neighbours of a double on the finest grid. One of them is near enough to be rounded back. -/

theorem denominator_pos (d : Decimal) : 0 < d.denominator := Nat.pow_pos (by decide)

/-- The value of a decimal. -/
theorem ratio_eq (d : Decimal) :
    (d.numerator : ℚ) / d.denominator = (d.digits : ℚ) * 10 ^ d.exponent := by
  have hshift := ratio_shift (b := 10) (by decide) d.digits 1 (-d.exponent)
  rw [neg_neg, Nat.one_mul, Nat.cast_one, div_one, Nat.cast_ofNat] at hshift
  exact hshift

variable {x : Double}

/-- A decimal less than half a unit away from a finite double reads back as it. -/
theorem magnitude_eq_of_near (hfinite : x.isFinite = true) {d : Decimal} (hdigits : 0 < d.digits)
    (hlow : (x.significand : ℚ) - 1 / 2 < d.digits * 10 ^ d.exponent * 2 ^ (-x.exponent))
    (hhigh : (d.digits : ℚ) * 10 ^ d.exponent * 2 ^ (-x.exponent) < x.significand + 1 / 2)
    (hbinade : x.exponent = -1074
      ∨ (2 : ℚ) ^ 52 ≤ d.digits * 10 ^ d.exponent * 2 ^ (-x.exponent)) :
    d.magnitude = x.magnitude := by
  have hnumerator : 0 < d.numerator := Nat.mul_pos hdigits (Nat.pow_pos (by decide))
  rw [← ratio_eq] at hlow hhigh hbinade
  have hfinite : x.magnitude < infinityMagnitude := by simpa [isFinite] using hfinite
  rw [magnitude, magnitudeOfRatio_eq hnumerator d.denominator_pos x.neg_1074_le_exponent
    x.significand_lt hlow hhigh hbinade, magnitude_eq_fields, min_eq_left hfinite.le]

/-- The step of the grid of seventeen digits, in units of the double. -/
theorem step_le (hzero : x.isZero = false) :
    (10 : ℚ) ^ (floorLog10 x.numerator x.denominator - 16) * 2 ^ (-x.exponent)
      ≤ x.significand * (1 / 10 ^ 16) := by
  have hsignificand := significand_pos hzero
  have hnumerator : 0 < x.numerator := Nat.mul_pos hsignificand (Nat.two_pow_pos _)
  have hdenominator : 0 < x.denominator := Nat.two_pow_pos _
  have hratio : (0 : ℚ) < (x.numerator : ℚ) / x.denominator := by positivity
  have hlog := Int.zpow_log_le_self (b := 10) (by decide) hratio
  rw [Double.ratio_eq, Nat.cast_ofNat] at hlog
  rw [floorLog10_eq hnumerator hdenominator, Double.ratio_eq]
  calc (10 : ℚ) ^ (Int.log 10 ((x.significand : ℚ) * 2 ^ x.exponent) - 16) * 2 ^ (-x.exponent)
      = 10 ^ Int.log 10 ((x.significand : ℚ) * 2 ^ x.exponent) * (1 / 10 ^ 16)
          * 2 ^ (-x.exponent) := by
        rw [zpow_sub₀ (by norm_num), div_eq_mul_one_div]
        norm_cast
    _ ≤ (x.significand * 2 ^ x.exponent) * (1 / 10 ^ 16) * 2 ^ (-x.exponent) := by gcongr
    _ = x.significand * (1 / 10 ^ 16) := by
        rw [zpow_neg]
        field_simp

/-- The two neighbours of a double on a grid, in units of the double. -/
theorem grid_bounds (x : Double) (unit : ℤ) :
    let low := x.numerator * 10 ^ (-unit).toNat / (x.denominator * 10 ^ unit.toNat)
    (low : ℚ) * 10 ^ unit * 2 ^ (-x.exponent) ≤ x.significand
      ∧ (x.significand : ℚ) < (low + 1 : ℕ) * 10 ^ unit * 2 ^ (-x.exponent) := by
  intro low
  have hgrid := ratio_shift (b := 10) (by decide) x.numerator x.denominator unit
  have hfloor : ⌊((x.numerator * 10 ^ (-unit).toNat : ℕ) : ℚ)
      / ((x.denominator * 10 ^ unit.toNat : ℕ) : ℚ)⌋₊ = low := Nat.floor_div_eq_div _ _
  rw [hgrid, Double.ratio_eq, Nat.cast_ofNat] at hfloor
  set r : ℚ := x.significand * 2 ^ x.exponent * 10 ^ (-unit) with hr
  have hunits : r * (10 ^ unit * 2 ^ (-x.exponent)) = x.significand := by
    rw [hr, zpow_neg, zpow_neg]
    field_simp
  have hlow : (low : ℚ) ≤ r := by
    rw [← hfloor]
    exact Nat.floor_le (by positivity)
  have hhigh : r < (low : ℚ) + 1 := by
    rw [← hfloor]
    exact Nat.lt_floor_add_one r
  have hstep : (0 : ℚ) < 10 ^ unit * 2 ^ (-x.exponent) := by positivity
  constructor
  · rw [mul_assoc, ← hunits]
    exact mul_le_mul_of_nonneg_right hlow hstep.le
  · rw [mul_assoc, Nat.cast_succ, ← hunits]
    exact mul_lt_mul_of_pos_right hhigh hstep

/-- **Seventeen digits suffice**: one of the two neighbours of a finite double on their grid reads
back as it. -/
theorem neighbour_reads (hfinite : x.isFinite = true) (hzero : x.isZero = false) :
    let unit := floorLog10 x.numerator x.denominator - 16
    let low := x.numerator * 10 ^ (-unit).toNat / (x.denominator * 10 ^ unit.toNat)
    (Decimal.mk low unit).magnitude = x.magnitude
      ∨ (Decimal.mk (low + 1) unit).magnitude = x.magnitude := by
  intro unit low
  have hstep : (10 : ℚ) ^ unit * 2 ^ (-x.exponent) ≤ x.significand * (1 / 10 ^ 16) := step_le hzero
  obtain ⟨hbelow, habove⟩ := grid_bounds x unit
  have hupper : ((low + 1 : ℕ) : ℚ) * 10 ^ unit * 2 ^ (-x.exponent)
      = (low : ℚ) * 10 ^ unit * 2 ^ (-x.exponent) + 10 ^ unit * 2 ^ (-x.exponent) := by
    push_cast
    ring
  have hsmall : (x.significand : ℚ) < 2 ^ 53 := by exact_mod_cast x.significand_lt
  have hpositive : (1 : ℚ) ≤ x.significand := by exact_mod_cast significand_pos hzero
  by_cases hnear : ((low + 1 : ℕ) : ℚ) * 10 ^ unit * 2 ^ (-x.exponent) < x.significand + 1 / 2
  · right
    refine magnitude_eq_of_near hfinite (Nat.succ_pos low) ?_ hnear ?_
    · exact lt_trans (by linarith) habove
    · rcases x.normal_or_least with hleast | hnormal
      · exact .inl hleast
      · have : (2 : ℚ) ^ 52 ≤ x.significand := by exact_mod_cast hnormal
        exact .inr (this.trans habove.le)
  · left
    -- the step is less than a unit, so the lower neighbour is the near one
    have hlow : (x.significand : ℚ) - 1 / 2 < low * 10 ^ unit * 2 ^ (-x.exponent) := by
      rw [hupper] at hnear
      linarith
    have hdigits : 0 < low := by
      refine Nat.pos_of_ne_zero fun heq => ?_
      rw [heq] at hlow
      norm_num at hlow
      linarith
    refine magnitude_eq_of_near hfinite hdigits hlow (by linarith) ?_
    rcases x.normal_or_least with hleast | hnormal
    · exact .inl hleast
    · -- a double of `2 ^ 52` units has steps of less than half a unit
      have hstrict : x.significand ≠ 2 ^ 52 := by
        intro heq
        rw [hupper] at hnear
        rw [heq] at hstep hbelow hnear
        push_cast at hstep hbelow hnear
        linarith
      have : (2 : ℚ) ^ 52 + 1 ≤ x.significand := by
        exact_mod_cast Nat.lt_of_le_of_ne hnormal (Ne.symm hstrict)
      exact .inr (by linarith)

/-! ## The search

The search goes from coarse grids to fine ones and stops at the first that has a candidate. Whatever
it stops at reads back, since candidates are tested; and it stops at the last grid at the latest. -/

/-- What is chosen is a neighbour that reads back. -/
theorem reads_of_choose {tie : Tie} {low rest den digits : ℕ} (reads : ℕ → Bool)
    (h : choose tie low rest den (reads low) (reads (low + 1)) = some digits) :
    reads digits = true := by
  cases hlow : reads low <;> cases hhigh : reads (low + 1) <;> rw [hlow, hhigh] at h
  case false.false => cases h
  case false.true =>
    cases h
    exact hhigh
  case true.false =>
    cases h
    exact hlow
  case true.true =>
    unfold choose at h
    dsimp only at h
    grind

theorem choose_isSome {tie : Tie} {low rest den : ℕ} {lowReads highReads : Bool}
    (h : lowReads = true ∨ highReads = true) :
    (choose tie low rest den lowReads highReads).isSome = true := by
  cases lowReads <;> cases highReads <;> unfold choose <;> grind

/-- The next power of ten has the same value with a single digit. -/
theorem magnitude_power (unit : ℤ) (count : ℕ) :
    (Decimal.mk 1 (unit + count)).magnitude = (Decimal.mk (10 ^ count) unit).magnitude := by
  unfold magnitude
  refine magnitudeOfRatio_congr (denominator_pos _) (denominator_pos _) ?_
  have hsingle := ratio_eq ⟨1, unit + count⟩
  have hvalue := ratio_eq ⟨10 ^ count, unit⟩
  dsimp only at hsingle hvalue
  rw [zpow_add₀ (by norm_num), zpow_natCast, Nat.cast_one, one_mul] at hsingle
  rw [Nat.cast_pow, Nat.cast_ofNat, mul_comm, ← hsingle] at hvalue
  have hleft : (((Decimal.mk 1 (unit + count)).denominator : ℕ) : ℚ) ≠ 0 := by
    exact_mod_cast (denominator_pos _).ne'
  have hright : (((Decimal.mk (10 ^ count) unit).denominator : ℕ) : ℚ) ≠ 0 := by
    exact_mod_cast (denominator_pos _).ne'
  rw [eq_comm, div_eq_div_iff hleft hright] at hvalue
  exact_mod_cast hvalue

theorem magnitude_candidate {tie : Tie} {num den magnitude count : ℕ} {d : Decimal}
    (h : candidate tie num den magnitude count = some d) : d.magnitude = magnitude := by
  obtain ⟨digits, hdigits, rfl⟩ := Option.map_eq_some_iff.mp h
  have hreads := beq_iff_eq.mp (reads_of_choose
    (fun n => (Decimal.mk n (floorLog10 num den - ((count : ℤ) - 1))).magnitude == magnitude)
    hdigits)
  split
  · next hpower =>
    rw [Nat.pow_eq] at hpower
    rw [magnitude_power, ← hpower, hreads]
  · exact hreads

/-- The search ends at the first count that has a candidate. -/
theorem exists_firstCandidate {tie : Tie} {num den magnitude : ℕ} (fuel count : ℕ)
    (h : (candidate tie num den magnitude (count + fuel)).isSome = true) :
    ∃ d c, firstCandidate tie num den magnitude (fuel + 1) count = some d
      ∧ candidate tie num den magnitude c = some d ∧ count ≤ c ∧ c ≤ count + fuel
      ∧ ∀ k, count ≤ k → k < c → candidate tie num den magnitude k = none := by
  induction fuel generalizing count with
  | zero =>
    obtain ⟨d, hd⟩ := Option.isSome_iff_exists.mp h
    rw [Nat.add_zero] at hd
    refine ⟨d, count, ?_, hd, Nat.le_refl _, Nat.le_refl _, fun k hle hlt => by omega⟩
    rw [firstCandidate, hd]
  | succ fuel ih =>
    rw [firstCandidate]
    cases hcandidate : candidate tie num den magnitude count with
    | some d =>
      exact ⟨d, count, rfl, hcandidate, Nat.le_refl _, by omega, fun k hle hlt => by omega⟩
    | none =>
      obtain ⟨d, c, hfirst, hd, hlow, hhigh, hnone⟩ :=
        ih (count + 1) (by rwa [Nat.add_assoc, Nat.add_comm 1 fuel])
      refine ⟨d, c, hfirst, hd, by omega, by omega, fun k hle hlt => ?_⟩
      rcases Nat.eq_or_lt_of_le hle with rfl | hgt
      · exact hcandidate
      · exact hnone k hgt hlt

/-- **The shortest decimal is the candidate of the least count that has one**, and that is not above
seventeen. -/
theorem exists_count (tie : Tie) (hfinite : x.isFinite = true) (hzero : x.isZero = false) :
    ∃ c, 1 ≤ c ∧ c ≤ 17
      ∧ candidate tie x.numerator x.denominator x.magnitude c = some (shortest tie x)
      ∧ ∀ k, 1 ≤ k → k < c → candidate tie x.numerator x.denominator x.magnitude k = none := by
  have hseventeen : (candidate tie x.numerator x.denominator x.magnitude (1 + 16)).isSome
      = true := by
    unfold candidate
    rw [Option.isSome_map]
    refine choose_isSome ?_
    simp only [beq_iff_eq]
    exact neighbour_reads hfinite hzero
  obtain ⟨d, c, hfirst, hd, hlow, hhigh, hnone⟩ := exists_firstCandidate 16 1 hseventeen
  refine ⟨c, hlow, hhigh, ?_, hnone⟩
  rw [shortest, hfirst]
  exact hd

/-- **The shortest decimal reads back.** -/
theorem magnitude_shortest (tie : Tie) (hfinite : x.isFinite = true) (hzero : x.isZero = false) :
    (shortest tie x).magnitude = x.magnitude := by
  obtain ⟨c, -, -, hcandidate, -⟩ := exists_count tie hfinite hzero
  exact magnitude_candidate hcandidate

theorem digits_shortest_ne_zero (tie : Tie) (hfinite : x.isFinite = true)
    (hzero : x.isZero = false) : (shortest tie x).digits ≠ 0 := by
  intro hdigits
  have hmagnitude := magnitude_shortest tie hfinite hzero
  rw [magnitude, numerator, hdigits, Nat.zero_mul] at hmagnitude
  have hnonzero : x.magnitude ≠ 0 := by simpa [isZero] using hzero
  exact hnonzero hmagnitude.symm

end ArithScript.Decimal
