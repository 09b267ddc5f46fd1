import ArithScript.Proofs.NearestDouble
import ArithScript.Proofs.NumeralReading
import Mathlib.Data.List.DropRight

/-!
# Numerals are exact and short

The numeral of a finite double other than zero denotes a rational that rounds to it, and no decimal
with fewer digits does.

That the search of `Decimal.shortest` misses nothing is an argument about grids. Take any decimal of
`count` digits that rounds to a double. If it lies in the decade of the double or above, it is a
point of the grid of that count; below the decade, the power of ten at which the decade begins is a
point of the grid and lies between. So there is a point of the grid between the decimal and the
double, or on one of them, and then one of the two neighbours of the double is too; what lies
between a number and its rounding rounds there too, and so that neighbour is a candidate
(`isSome_candidate`).

A decimal that ends in zero has the value of a shorter one. So the shortest does not end in zero,
and neither does the fraction of a numeral.
-/

set_option autoImplicit false

namespace ArithScript

open Double (RoundsTo)

/-! ## Signs

Numerals of negative doubles have a minus in front. All that is said about rounding is carried over
from the double without its sign. -/

namespace Double

variable {x : Double} {r : ℚ}

theorem value_abs (x : Double) : x.abs.value = x.absValue := by
  have hsign : x.abs.signBit = false := signBit_ofMagnitude false x.magnitude_lt
  rw [value, hsign, if_neg Bool.false_ne_true]
  exact absValue_congr (magnitude_ofMagnitude false x.magnitude_lt)

theorem value_neg_iff (h : x.isZero = false) : x.value < 0 ↔ x.signBit = true := by
  have hpos := absValue_pos h
  unfold value
  split
  · next hsign => exact iff_of_true (neg_lt_zero.mpr hpos) hsign
  · next hsign => exact iff_of_false (not_lt.mpr hpos.le) hsign

/-- A double is the one without its sign, or the negation of that. -/
theorem eq_abs_or_negate (x : Double) :
    x.signBit = false ∧ x = x.abs ∨ x.signBit = true ∧ x = x.abs.negate := by
  have hself := x.ofMagnitude_self
  cases hsign : x.signBit with
  | false =>
    rw [hsign] at hself
    exact .inl ⟨rfl, hself.symm⟩
  | true =>
    rw [hsign] at hself
    refine .inr ⟨rfl, ?_⟩
    rw [negate, abs, signBit_ofMagnitude _ x.magnitude_lt, magnitude_ofMagnitude _ x.magnitude_lt]
    exact hself.symm

/-- What rounds to a positive double is positive. -/
theorem RoundsTo.pos (h : RoundsTo r x) (hx : 0 < x.value) : 0 < r := by
  by_contra hr
  have hnearest := h.nearest (ofMagnitude false 0) (by decide)
  rw [value_zero, sub_zero, abs_of_nonpos (by linarith), abs_of_nonpos (by linarith)] at hnearest
  linarith

/-- Rounding does not mind the sign. -/
theorem RoundsTo.abs (h : RoundsTo r x) (hzero : x.isZero = false) : RoundsTo |r| x.abs := by
  have hpos := absValue_pos hzero
  rw [← value_abs] at hpos
  rcases x.eq_abs_or_negate with ⟨-, heq⟩ | ⟨-, heq⟩
  · rw [heq] at h
    rw [abs_of_pos (h.pos hpos)]
    exact h
  · rw [heq] at h
    have hnegate := h.negate
    rw [negate_negate] at hnegate
    rw [← abs_neg, abs_of_pos (hnegate.pos hpos)]
    exact hnegate

theorem RoundsTo.of_abs (h : RoundsTo r x.abs) (hzero : x.isZero = false) :
    RoundsTo (if x.value < 0 then -r else r) x := by
  have hneg := value_neg_iff hzero
  rcases x.eq_abs_or_negate with ⟨hsign, heq⟩ | ⟨hsign, heq⟩
  · rw [if_neg (by simp [hneg, hsign]), heq]
    exact h
  · rw [if_pos (hneg.mpr hsign)]
    rw [heq]
    exact h.negate

end Double

/-! ## The least count

If any decimal of some count of digits rounds to the double, the search finds one on the grid of
that count. So the count it stops at is the least. -/

namespace Decimal

variable {x : Double}

/-- A decimal reads back as a double if and only if it rounds to it. -/
theorem magnitude_eq_iff (d : Decimal) :
    d.magnitude = x.magnitude ↔ RoundsTo (d.digits * 10 ^ d.exponent) x.abs := by
  have hround := Double.roundsTo_ratio d.numerator d.denominator_pos
  rw [ratio_eq] at hround
  constructor
  · intro h
    rw [← magnitude, h] at hround
    exact hround
  · intro h
    have hvalue := h.value_eq hround
    have habs : x.abs.absValue
        = (Double.ofMagnitude false
            (Double.magnitudeOfRatio d.numerator d.denominator)).absValue := by
      rw [← Double.abs_value, ← Double.abs_value, hvalue]
    have hmagnitude := Double.magnitude_eq_of_absValue_eq habs
    rw [Double.abs, Double.magnitude_ofMagnitude _ x.magnitude_lt,
      Double.magnitude_ofMagnitude _ (Double.magnitudeOfRatio_lt _ _)] at hmagnitude
    exact hmagnitude.symm

/-- The value of a double lies in the decade that its logarithm names. -/
theorem decade_bounds (hzero : x.isZero = false) :
    (10 : ℚ) ^ floorLog10 x.numerator x.denominator ≤ x.absValue
      ∧ x.absValue < 10 ^ (floorLog10 x.numerator x.denominator + 1) := by
  have hnumerator : 0 < x.numerator :=
    Nat.mul_pos (Double.significand_pos hzero) (Nat.two_pow_pos _)
  have hdenominator : 0 < x.denominator := Nat.two_pow_pos _
  have hratio : (x.numerator : ℚ) / x.denominator = x.absValue := x.ratio_eq
  rw [floorLog10_eq hnumerator hdenominator, hratio]
  exact ⟨Int.zpow_log_le_self (by decide) (Double.absValue_pos hzero),
    Int.lt_zpow_succ_log_self (by decide) _⟩

/-- The lower neighbour of a double on a grid. -/
def gridFloor (x : Double) (unit : ℤ) : ℕ :=
  x.numerator * 10 ^ (-unit).toNat / (x.denominator * 10 ^ unit.toNat)

/-- The points of a grid that are not above a double are those up to its lower neighbour. -/
theorem grid_le_iff (x : Double) (unit : ℤ) (k : ℕ) :
    (k : ℚ) * 10 ^ unit ≤ x.absValue ↔ k ≤ gridFloor x unit := by
  have hshift := Double.ratio_shift (b := 10) (by decide) x.numerator x.denominator unit
  have hratio : (x.numerator : ℚ) / x.denominator = x.absValue := x.ratio_eq
  have hfloor := Nat.floor_div_eq_div (K := ℚ) (x.numerator * 10 ^ (-unit).toNat)
    (x.denominator * 10 ^ unit.toNat)
  rw [hshift, hratio, Nat.cast_ofNat] at hfloor
  have hnonneg : 0 ≤ x.absValue * 10 ^ (-unit) := mul_nonneg x.absValue_nonneg (by positivity)
  rw [gridFloor, ← hfloor, Nat.le_floor_iff hnonneg, zpow_neg, ← div_eq_mul_inv,
    le_div_iff₀ (by positivity)]

theorem lt_grid_succ (x : Double) (unit : ℤ) :
    x.absValue < ((gridFloor x unit + 1 : ℕ) : ℚ) * 10 ^ unit :=
  not_le.mp fun hle => absurd ((grid_le_iff x unit _).mp hle) (Nat.not_succ_le_self _)

/-- A decimal of at most `count` digits that is not below a decade is a point of its grid. -/
theorem exists_grid_point {m count : ℕ} (hm : m < 10 ^ count) {e decade : ℤ}
    (h : (10 : ℚ) ^ decade ≤ m * 10 ^ e) :
    ∃ k : ℕ, (m : ℚ) * 10 ^ e = k * 10 ^ (decade - ((count : ℤ) - 1)) := by
  have hlt : (10 : ℚ) ^ decade < 10 ^ ((count : ℤ) + e) := by
    refine h.trans_lt ?_
    have : (m : ℚ) < 10 ^ count := by exact_mod_cast hm
    rw [zpow_add₀ (by norm_num), zpow_natCast]
    exact mul_lt_mul_of_pos_right this (by positivity)
  have hexponent := (zpow_lt_zpow_iff_right₀ (by norm_num)).mp hlt
  refine ⟨m * 10 ^ (e - (decade - ((count : ℤ) - 1))).toNat, ?_⟩
  have hsplit : e = ((e - (decade - ((count : ℤ) - 1))).toNat : ℤ)
      + (decade - ((count : ℤ) - 1)) := by omega
  rw [Nat.cast_mul, Nat.cast_pow, Nat.cast_ofNat, mul_assoc, ← zpow_natCast,
    ← zpow_add₀ (by norm_num), ← hsplit]

/-- **The search misses nothing**: if a decimal of at most `count` digits rounds to a double, there
is a candidate with that count. -/
theorem isSome_candidate (tie : Tie) (hzero : x.isZero = false) {m count : ℕ} (hcount : 1 ≤ count)
    (hm : m < 10 ^ count) {e : ℤ} (h : RoundsTo (m * 10 ^ e) x.abs) :
    (candidate tie x.numerator x.denominator x.magnitude count).isSome = true := by
  obtain ⟨hlow, -⟩ := decade_bounds hzero
  obtain ⟨decade, hdecade⟩ : ∃ decade, decade = floorLog10 x.numerator x.denominator := ⟨_, rfl⟩
  obtain ⟨unit, hunit⟩ : ∃ unit, unit = decade - ((count : ℤ) - 1) := ⟨_, rfl⟩
  rw [← hdecade] at hlow
  have hvalue := x.value_abs
  -- one of the neighbours lies between the decimal and the double
  have hreads : RoundsTo ((gridFloor x unit : ℕ) * 10 ^ unit) x.abs
      ∨ RoundsTo ((gridFloor x unit + 1 : ℕ) * 10 ^ unit) x.abs := by
    rcases le_or_gt ((m : ℚ) * 10 ^ e) x.absValue with hbelow | habove
    · left
      refine h.between (.inl ⟨?_, ?_⟩)
      · rcases le_or_gt ((10 : ℚ) ^ decade) (m * 10 ^ e) with hin | hout
        · obtain ⟨k, hk⟩ := exists_grid_point hm hin
          rw [← hunit] at hk
          rw [hk] at hbelow ⊢
          have : (k : ℚ) ≤ gridFloor x unit := by exact_mod_cast (grid_le_iff x unit k).mp hbelow
          gcongr
        · have hpower : (10 : ℚ) ^ decade = (10 ^ (count - 1) : ℕ) * 10 ^ unit := by
            rw [Nat.cast_pow, Nat.cast_ofNat, ← zpow_natCast, ← zpow_add₀ (by norm_num)]
            congr 1
            omega
          rw [hpower] at hlow hout
          have : ((10 ^ (count - 1) : ℕ) : ℚ) ≤ gridFloor x unit := by
            exact_mod_cast (grid_le_iff x unit _).mp hlow
          refine hout.le.trans ?_
          gcongr
      · rw [hvalue]
        exact (grid_le_iff x unit _).mpr (Nat.le_refl _)
    · right
      obtain ⟨k, hk⟩ := exists_grid_point hm (hlow.trans habove.le)
      rw [← hunit] at hk
      rw [hk] at habove h
      refine h.between (.inr ⟨?_, ?_⟩)
      · rw [hvalue]
        exact (lt_grid_succ x unit).le
      · have hk : gridFloor x unit + 1 ≤ k := by
          by_contra hlt
          exact absurd ((grid_le_iff x unit k).mpr (by omega)) (not_le.mpr habove)
        have : ((gridFloor x unit + 1 : ℕ) : ℚ) ≤ k := by exact_mod_cast hk
        gcongr
  unfold candidate
  rw [Option.isSome_map, ← hdecade, ← hunit]
  refine choose_isSome ?_
  simp only [beq_iff_eq]
  exact hreads.imp (magnitude_eq_iff ⟨_, unit⟩).mpr (magnitude_eq_iff ⟨_, unit⟩).mpr

theorem choose_mem {tie : Tie} {low rest den digits : ℕ} {lowReads highReads : Bool}
    (h : choose tie low rest den lowReads highReads = some digits) :
    digits = low ∨ digits = low + 1 := by
  cases lowReads <;> cases highReads <;> unfold choose at h <;> grind

/-- A candidate has at most as many digits as it was asked for. -/
theorem digitCount_candidate_le {tie : Tie} (hzero : x.isZero = false) {count : ℕ}
    (hcount : 1 ≤ count) {d : Decimal}
    (h : candidate tie x.numerator x.denominator x.magnitude count = some d) :
    digitCount d.digits ≤ count := by
  obtain ⟨-, hhigh⟩ := decade_bounds hzero
  obtain ⟨unit, hunit⟩ :
    ∃ unit, unit = floorLog10 x.numerator x.denominator - ((count : ℤ) - 1) := ⟨_, rfl⟩
  -- the point below the number has no more digits than asked for: the next power of ten is above
  -- the number
  have hfloor : gridFloor x unit < 10 ^ count := by
    by_contra hle
    have hpoint := (grid_le_iff x unit _).mpr (Nat.le_of_not_lt hle)
    have hpower : ((10 ^ count : ℕ) : ℚ) * 10 ^ unit
        = 10 ^ (floorLog10 x.numerator x.denominator + 1) := by
      rw [Nat.cast_pow, Nat.cast_ofNat, ← zpow_natCast, ← zpow_add₀ (by norm_num)]
      congr 1
      omega
    rw [hpower] at hpoint
    exact absurd hpoint (not_le.mpr hhigh)
  have hcountOf : ∀ {n : ℕ}, n < 10 ^ count → digitCount n ≤ count :=
    fun hn => (Nat.length_toDigits_le_iff (by decide) hcount).mpr hn
  obtain ⟨digits, hchoose, rfl⟩ := Option.map_eq_some_iff.mp h
  rw [← hunit] at hchoose
  -- so the point above has one digit more only as that power itself, which is written with one
  -- digit
  have hdigits : digits ≤ 10 ^ count := by
    have hmem : digits = gridFloor x unit ∨ digits = gridFloor x unit + 1 := choose_mem hchoose
    omega
  split
  · exact hcountOf (Nat.one_lt_pow (by omega) (by decide))
  · next hne =>
    rw [Nat.pow_eq] at hne
    exact hcountOf (Nat.lt_of_le_of_ne hdigits hne)

/-- **No decimal with fewer digits rounds to a double than its shortest.** -/
theorem digitCount_shortest_le (tie : Tie) (hfinite : x.isFinite = true) (hzero : x.isZero = false)
    {m : ℕ} {e : ℤ} (h : RoundsTo (m * 10 ^ e) x.abs) :
    digitCount (shortest tie x).digits ≤ digitCount m := by
  obtain ⟨c, hpos, -, hcandidate, hnone⟩ := exists_count tie hfinite hzero
  refine (digitCount_candidate_le hzero hpos hcandidate).trans ?_
  by_contra hlt
  have hsome := isSome_candidate tie hzero (digitCount_pos m) (lt_pow_digitCount m) h
  rw [hnone _ (digitCount_pos m) (Nat.lt_of_not_le hlt)] at hsome
  cases hsome

theorem toDigits_ten_mul {n : ℕ} (hn : 0 < n) :
    Nat.toDigits 10 (10 * n) = Nat.toDigits 10 n ++ ['0'] := by
  have happend := Nat.toDigits_append_toDigits (b := 10) (d := 0) (by decide) hn (by decide)
  rw [Nat.add_zero, Nat.toDigits_zero] at happend
  exact happend.symm

theorem digitCount_ten_mul {n : ℕ} (hn : 0 < n) : digitCount (10 * n) = digitCount n + 1 := by
  rw [digitCount, toDigits_ten_mul hn, List.length_append, List.length_singleton, digitCount]

/-- The shortest decimal does not end in zero. -/
theorem digits_shortest_mod_ten (tie : Tie) (hfinite : x.isFinite = true)
    (hzero : x.isZero = false) : (shortest tie x).digits % 10 ≠ 0 := by
  intro hend
  have hround := (magnitude_eq_iff _).mp (magnitude_shortest tie hfinite hzero)
  have hne := digits_shortest_ne_zero tie hfinite hzero
  obtain ⟨n, hn⟩ := Nat.dvd_of_mod_eq_zero hend
  have hpos : 0 < n := by omega
  have hvalue : ((shortest tie x).digits : ℚ) * 10 ^ (shortest tie x).exponent
      = n * 10 ^ ((shortest tie x).exponent + 1) := by
    rw [hn, zpow_add₀ (by norm_num)]
    push_cast
    ring
  rw [hvalue] at hround
  have hle := digitCount_shortest_le tie hfinite hzero hround
  rw [hn, digitCount_ten_mul hpos] at hle
  omega

end Decimal

/-! ## Significant digits

Zeros in front and at the end of the digits of a numeral say where its point is and nothing else.
Without them, what is left of a numeral are the digits of its decimal. -/

namespace Script

/-- Digits without the zeros at both ends. -/
def significant (cs : List Char) : List Char :=
  (cs.dropWhile (· == '0')).rdropWhile (· == '0')

theorem dropWhile_zeros {cs : List Char} (h : cs.head? ≠ some '0') (count : ℕ) :
    (Decimal.zeros count ++ cs).dropWhile (· == '0') = cs := by
  have hzeros : ∀ c ∈ Decimal.zeros count, (c == '0') = true := by
    intro c hmem
    rw [List.eq_of_mem_replicate hmem]
    rfl
  rw [List.dropWhile_append_of_pos hzeros]
  cases cs with
  | nil => rfl
  | cons c cs =>
    have hc : (c == '0') = false := by simpa using h
    rw [List.dropWhile_cons, hc, if_neg Bool.false_ne_true]

/-- Zeros around digits that neither begin nor end with one are not significant. -/
theorem significant_zeros {cs : List Char} (hne : cs ≠ []) (hhead : cs.head? ≠ some '0')
    (hlast : cs.getLast? ≠ some '0') (before after : ℕ) :
    significant (Decimal.zeros before ++ (cs ++ Decimal.zeros after)) = cs := by
  have hfront : (cs ++ Decimal.zeros after).head? ≠ some '0' := by
    rwa [List.head?_append_of_ne_nil _ hne]
  have hback : cs.reverse.head? ≠ some '0' := by rwa [List.head?_reverse]
  rw [significant, dropWhile_zeros hfront, List.rdropWhile, List.reverse_append, Decimal.zeros,
    List.reverse_replicate, ← Decimal.zeros, dropWhile_zeros hback, List.reverse_reverse]

theorem getLast?_toDigits (n : ℕ) :
    (Nat.toDigits 10 n).getLast? = some (Nat.digitChar (n % 10)) := by
  by_cases hsmall : n < 10
  · rw [Nat.toDigits_of_lt_base hsmall, Nat.mod_eq_of_lt hsmall]
    rfl
  · rw [Nat.toDigits_of_base_le (by decide) (Nat.le_of_not_lt hsmall), List.getLast?_concat]

theorem significant_toDigits {n : ℕ} (hn : n % 10 ≠ 0) (before after : ℕ) :
    significant (Decimal.zeros before ++ (Nat.toDigits 10 n ++ Decimal.zeros after))
      = Nat.toDigits 10 n := by
  refine significant_zeros Nat.toDigits_ne_nil ?_ ?_ before after
  · obtain ⟨c, hhead, hc⟩ := exists_head_digitChars (d := ⟨n, 0⟩) (by rintro rfl; exact hn rfl)
    rw [show (Nat.toDigits 10 n).head? = some c from hhead]
    exact fun heq => hc (Option.some.inj heq)
  · rw [getLast?_toDigits]
    exact fun heq => hn (Nat.digitChar_eq_zero.mp (Option.some.inj heq))

/-- A number is its significant digits, followed by zeros. -/
theorem exists_significant {n : ℕ} (hn : 0 < n) :
    ∃ m count, n = m * 10 ^ count ∧ significant (Nat.toDigits 10 n) = Nat.toDigits 10 m := by
  have hzeros : ∃ m count, n = m * 10 ^ count ∧ m % 10 ≠ 0
      ∧ Nat.toDigits 10 n = Nat.toDigits 10 m ++ Decimal.zeros count := by
    induction n using Nat.strongRecOn with
    | ind n ih =>
      by_cases hend : n % 10 = 0
      · obtain ⟨k, rfl⟩ := Nat.dvd_of_mod_eq_zero hend
        obtain ⟨m, count, hvalue, hm, hdigits⟩ := ih k (by omega) (by omega)
        refine ⟨m, count + 1, ?_, hm, ?_⟩
        · rw [Nat.pow_succ, ← Nat.mul_assoc, ← hvalue, Nat.mul_comm]
        · rw [Decimal.toDigits_ten_mul (by omega), hdigits, List.append_assoc, Decimal.zeros,
            Decimal.zeros, List.replicate_succ']
      · exact ⟨n, 0, by rw [Nat.pow_zero, Nat.mul_one], hend, (List.append_nil _).symm⟩
  obtain ⟨m, count, hvalue, hm, hdigits⟩ := hzeros
  exact ⟨m, count, hvalue, by rw [hdigits]; exact significant_toDigits hm 0 count⟩

/-! ## Numerals

A numeral is laid out without an exponent: digits, maybe a point, and digits. Its value is that of
its decimal, and the layout of a different value is a different text. -/

namespace PlainNumeral

/-- The rational that a numeral denotes. -/
def value (n : PlainNumeral) : ℚ := Nat.ofDigitChars 10 n.digits 0 / 10 ^ n.fraction.length

theorem LaysOut.value_eq {n : PlainNumeral} {d : Decimal} (h : n.LaysOut d) :
    n.value = d.digits * 10 ^ d.exponent := by
  have hdenominator : (10 : ℚ) ^ n.fraction.length = d.denominator := by
    exact_mod_cast h.denominator_eq
  rw [value, h.numerator_eq, hdenominator, Decimal.ratio_eq]

theorem isDigit_of_head {n : PlainNumeral} {c : Char} (h : n.text.head? = some c) :
    c.isDigit = true := by
  obtain ⟨first, rest, hwhole⟩ : ∃ first rest, n.whole = first :: rest := by
    refine List.exists_cons_of_ne_nil fun hempty => ?_
    have hform := n.whole_form
    rw [hempty] at hform
    exact absurd hform (by decide)
  rw [text, hwhole] at h
  cases h
  exact n.whole_digits _ (by rw [hwhole]; exact List.mem_cons_self)

theorem drop_tail (n : PlainNumeral) : n.tail.drop 1 = n.fraction := by
  unfold tail
  split
  · next hempty =>
    rw [hempty]
    rfl
  · rfl

/-- A numeral is known by its text. -/
theorem text_injective : Function.Injective text := by
  intro n n' h
  have hends : ∀ n : PlainNumeral, ∀ c ∈ n.tail.head?, c.isDigit = false := by
    intro n c hc
    unfold tail at hc
    split at hc
    · cases hc
    · cases hc
      rfl
  have hwhole : n.whole = n'.whole := by
    have htake := takeWhile_run n.whole_digits (hends n)
    have htake' := takeWhile_run n'.whole_digits (hends n')
    rw [← htake, ← htake', ← text, ← text, h]
  have htail : n.tail = n'.tail := by
    rw [text, text, hwhole] at h
    exact List.append_cancel_left h
  have hfraction : n.fraction = n'.fraction := by
    rw [← n.drop_tail, ← n'.drop_tail, htail]
  cases n
  cases n'
  cases hwhole
  cases hfraction
  rfl

/-- So is a numeral with a minus or without. -/
theorem signed_text_injective {n n' : PlainNumeral} {p q : Prop} [Decidable p] [Decidable q]
    (h : (if p then '-' :: n.text else n.text) = if q then '-' :: n'.text else n'.text) :
    (p ↔ q) ∧ n = n' := by
  have hminus : ∀ (n : PlainNumeral) (cs : List Char), n.text ≠ '-' :: cs := fun n cs heq =>
    absurd (n.isDigit_of_head (by rw [heq, List.head?_cons])) (by decide)
  split at h <;> split at h
  · next hp hq => exact ⟨iff_of_true hp hq, text_injective (List.cons.inj h).2⟩
  · exact absurd h.symm (hminus n' _)
  · exact absurd h (hminus n _)
  · next hp hq => exact ⟨iff_of_false hp hq, text_injective h⟩

end PlainNumeral

variable {x : Double}

theorem numeral_eq_positional (hfinite : x.isFinite = true) (hzero : x.isZero = false) :
    numeral x = if x.value < 0 then '-' :: (Decimal.shortest .upward x).positional
      else (Decimal.shortest .upward x).positional := by
  have hmagnitude : x.magnitude < Double.infinityMagnitude := by
    simpa [Double.isFinite] using hfinite
  have hnumber : x.isNaN = false := decide_eq_false (Nat.lt_asymm hmagnitude)
  have hbounded : x.isInfinite = false := beq_false_of_ne (Nat.ne_of_lt hmagnitude)
  have hnegative : x.isNegative = x.signBit := by
    rw [Double.isNegative, hnumber, hzero, Bool.not_false, Bool.and_true, Bool.and_true]
  simp only [numeral, hnumber, hbounded, hzero, hnegative, Double.value_neg_iff hzero,
    Bool.false_eq_true, if_false]

/-- The numeral of a double is the layout of its shortest decimal. -/
theorem exists_numeral_shortest (hfinite : x.isFinite = true) (hzero : x.isZero = false) :
    ∃ n : PlainNumeral, n.LaysOut (Decimal.shortest .upward x)
      ∧ numeral x = (if x.value < 0 then '-' :: n.text else n.text)
      ∧ RoundsTo (if x.value < 0 then -n.value else n.value) x := by
  obtain ⟨n, h⟩ := exists_layout (Decimal.digits_shortest_ne_zero .upward hfinite hzero)
  refine ⟨n, h, by rw [numeral_eq_positional hfinite hzero, h.text_eq], ?_⟩
  rw [h.value_eq]
  have hmagnitude := Decimal.magnitude_shortest .upward hfinite hzero
  exact ((Decimal.magnitude_eq_iff _).mp hmagnitude).of_abs hzero

/-- The significant digits of a numeral are those of the shortest decimal. -/
theorem PlainNumeral.LaysOut.significant_eq (hfinite : x.isFinite = true) (hzero : x.isZero = false)
    {n : PlainNumeral} (h : n.LaysOut (Decimal.shortest .upward x)) :
    significant n.digits = Nat.toDigits 10 (Decimal.shortest .upward x).digits := by
  obtain ⟨before, after, hdigits⟩ := h.padded
  rw [hdigits]
  exact significant_toDigits (Decimal.digits_shortest_mod_ten .upward hfinite hzero) before after

/-- No decimal that rounds to a double has fewer significant digits than its shortest. -/
theorem length_significant_le (hfinite : x.isFinite = true) (hzero : x.isZero = false) {m e : ℤ}
    (h : RoundsTo (m * 10 ^ e) x) :
    Decimal.digitCount (Decimal.shortest .upward x).digits
      ≤ (significant (Nat.toDigits 10 m.natAbs)).length := by
  have habs : |(m : ℚ) * 10 ^ e| = (m.natAbs : ℚ) * 10 ^ e := by
    rw [abs_mul, abs_of_pos (show (0 : ℚ) < 10 ^ e by positivity), Nat.cast_natAbs, Int.cast_abs]
  have hround := h.abs hzero
  rw [habs] at hround
  have hpos : 0 < m.natAbs := by
    have hvalue := hround.pos (by rw [Double.value_abs]; exact Double.absValue_pos hzero)
    refine Nat.pos_of_ne_zero fun heq => ?_
    rw [heq, Nat.cast_zero, zero_mul] at hvalue
    exact absurd hvalue (lt_irrefl 0)
  obtain ⟨j, count, hvalue, hdigits⟩ := exists_significant hpos
  rw [hdigits]
  refine Decimal.digitCount_shortest_le .upward hfinite hzero (e := count + e) ?_
  rw [hvalue, Nat.cast_mul, Nat.cast_pow, Nat.cast_ofNat, mul_assoc, ← zpow_natCast,
    ← zpow_add₀ (by norm_num)] at hround
  exact hround

/-- **Numerals are exact and short.** The numeral of a finite double other than zero is a plain
numeral, with a minus in front if and only if the double is below zero, and its fraction does not
end in zero. The rational that it denotes rounds to the double, and any decimal that does has at
least as many significant digits. So different doubles have different numerals. -/
theorem numeral_exact_and_short (hfinite : x.isFinite = true) (hzero : x.isZero = false) :
    (∃ n : PlainNumeral,
      numeral x = (if x.value < 0 then '-' :: n.text else n.text)
        ∧ n.fraction.getLast? ≠ some '0'
        ∧ RoundsTo (if x.value < 0 then -n.value else n.value) x
        ∧ ∀ m e : ℤ, RoundsTo (m * 10 ^ e) x →
            (significant n.digits).length ≤ (significant (Nat.toDigits 10 m.natAbs)).length)
      ∧ ∀ y : Double, y.isFinite = true → y.isZero = false → numeral y = numeral x → y = x := by
  obtain ⟨n, hlayout, htext, hround⟩ := exists_numeral_shortest hfinite hzero
  refine ⟨⟨n, htext, ?_, hround, fun m e h => ?_⟩, fun y hyFinite hyZero heq => ?_⟩
  · intro hend
    have hne : n.fraction ≠ [] := by
      intro hempty
      rw [hempty] at hend
      cases hend
    rw [hlayout.fraction_end hne, Decimal.digitChars, getLast?_toDigits] at hend
    exact Decimal.digits_shortest_mod_ten .upward hfinite hzero
      (Nat.digitChar_eq_zero.mp (Option.some.inj hend))
  · rw [hlayout.significant_eq hfinite hzero]
    exact length_significant_le hfinite hzero h
  · obtain ⟨n', -, htext', hround'⟩ := exists_numeral_shortest hyFinite hyZero
    rw [htext, htext'] at heq
    obtain ⟨hsign, rfl⟩ := PlainNumeral.signed_text_injective heq
    simp only [hsign] at hround'
    exact Double.eq_of_value_eq hyZero (hround'.value_eq hround)

/-- The double next to zero on the negative side. Seventeen digits are far more than it needs. -/
def leastNegative : Double := ⟨0x8000000000000001⟩

theorem numeral_exact_and_short_leastNegative :
    leastNegative.isFinite = true ∧ leastNegative.isZero = false
      ∧ (∃ n : PlainNumeral, numeral leastNegative = '-' :: n.text
        ∧ n.fraction.getLast? ≠ some '0'
        ∧ RoundsTo (-n.value) leastNegative
        ∧ ∀ m e : ℤ, RoundsTo (m * 10 ^ e) leastNegative →
            (significant n.digits).length ≤ (significant (Nat.toDigits 10 m.natAbs)).length)
      ∧ numeral leastNegative.abs ≠ numeral leastNegative := by
  have hfinite : leastNegative.isFinite = true := by decide
  have hzero : leastNegative.isZero = false := by decide
  have hneg : leastNegative.value < 0 := (Double.value_neg_iff hzero).mpr (by decide)
  obtain ⟨⟨n, htext, hend, hround, hshort⟩, hdistinct⟩ := numeral_exact_and_short hfinite hzero
  rw [if_pos hneg] at htext hround
  refine ⟨hfinite, hzero, ⟨n, htext, hend, hround, hshort⟩, fun heq => ?_⟩
  exact absurd (hdistinct leastNegative.abs (by decide) (by decide) heq) (by decide)

example : numeral ⟨0x3FC3333333333333⟩ = ['0', '.', '1', '5'] := by decide +kernel

end Script

end ArithScript
