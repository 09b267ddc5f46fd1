import ArithScript.Proofs.Vlq
import Mathlib.Algebra.Ring.Int.Defs
import Mathlib.Algebra.Ring.Nat

/-!
# Quantities in words of 64 bits

`Vlq.encode` works on integers without a bound. A writer that has signed words of 64 bits moves the
sign with a shift, cuts off digits with masks and shifts, and stops when nothing is left
(`Word.Writes`). It may lose the highest bit in the first shift. What is left is then negative, and
an arithmetic shift never makes it zero, so the writer does not stop.

That happens from `2 ^ 62` on, and not before: below that bound the words hold what the integers
hold, the loop ends, and the text is the same (`Word.writes_iff`). So all that is known about the
integers is known about the words: texts in a row are read back, and no text begins another.
-/

set_option autoImplicit false

namespace ArithScript.Vlq

namespace Word

/-- A word with its sign moved to the lowest bit; `none` if the word has no negation. The shift may
lose the highest bit. -/
def signToBit? (n : Int64) : Option Int64 :=
  if n < 0 then
    if n = Int64.minValue then none else some ((-n) <<< 1 ||| 1)
  else some (n <<< 1)

/-- What is left of a word without its lowest digit. -/
def high (n : Int64) : Int64 := n >>> 5

/-- The lowest digit of a word: its five lowest bits, and a sixth if more digits follow. -/
def lowest (n : Int64) : Char :=
  Base64.digit (if 0 < high n then n &&& 31 ||| 32 else n &&& 31).toNatClampNeg

/-- The loop that writes a word digit by digit ends, with the given digits. -/
inductive Digits : Int64 → List Char → Prop
  | last {n : Int64} (h : high n = 0) : Digits n [lowest n]
  | more {n : Int64} {text : List Char} (h : high n ≠ 0) (rest : Digits (high n) text) :
      Digits n (lowest n :: text)

/-- The writing of a word ends, with the given text. -/
def Writes (n : Int64) (text : List Char) : Prop := ∃ w, signToBit? n = some w ∧ Digits w text

/-- The writing of words one after another ends, with the given text. -/
inductive WritesAll : List Int64 → List Char → Prop
  | nil : WritesAll [] []
  | cons {n : Int64} {ns : List Int64} {text rest : List Char} (first : Writes n text)
      (others : WritesAll ns rest) : WritesAll (n :: ns) (text ++ rest)

/-! ## Words as integers

What shifts and masks do to a word, said of the integer that the word stands for. A right shift
keeps the sign, so it is a division that rounds down. -/

theorem toInt_high (n : Int64) : (high n).toInt = n.toInt / 32 := by
  have hamount : (5 : Int64).toBitVec.smod 64 = 5#64 := by decide
  have hshift : (high n).toBitVec = n.toBitVec.sshiftRight 5 := by
    rw [high, Int64.toBitVec_shiftRight, hamount]
    rfl
  rw [← Int64.toInt_toBitVec, hshift, BitVec.toInt_sshiftRight, Int.shiftRight_eq_div_pow]
  rfl

/-- A word as an integer, by its bits as a natural number. -/
theorem toInt_eq (n : Int64) : n.toBitVec.toNat < 2 ^ 64
    ∧ n.toInt = if n.toBitVec.toNat < 2 ^ 63 then (n.toBitVec.toNat : Int)
      else n.toBitVec.toNat - 2 ^ 64 := by
  have hlt := n.toBitVec.isLt
  refine ⟨hlt, ?_⟩
  rw [← Int64.toInt_toBitVec, BitVec.toInt_eq_toNat_cond]
  split <;> split <;> omega

theorem toInt_low (n : Int64) : (n &&& 31).toInt = n.toInt % 32 := by
  have hmask : (n &&& 31).toBitVec.toNat = n.toBitVec.toNat % 32 := by
    rw [Int64.toBitVec_and, BitVec.toNat_and]
    exact Nat.and_two_pow_sub_one_eq_mod _ 5
  have hword := toInt_eq n
  have hlow := toInt_eq (n &&& 31)
  rw [hmask] at hlow
  split at hword <;> split at hlow <;> omega

theorem toInt_or_32 {n : Int64} (hnonneg : 0 ≤ n.toInt) (hlt : n.toInt < 32) :
    (n ||| 32).toInt = n.toInt + 32 := by
  have hword := toInt_eq n
  have hbits : n.toBitVec.toNat < 2 ^ 5 := by split at hword <;> omega
  have hor : (n ||| 32).toBitVec.toNat = 2 ^ 5 * 1 + n.toBitVec.toNat := by
    rw [Int64.toBitVec_or, BitVec.toNat_or, Nat.or_comm, Nat.two_pow_add_eq_or_of_lt hbits]
    rfl
  have hmarked := toInt_eq (n ||| 32)
  rw [hor] at hmarked
  split at hword <;> split at hmarked <;> omega

/-- The shift loses the highest bit from `2 ^ 62` on. -/
theorem toInt_double {n : Int64} (hnonneg : 0 ≤ n.toInt) :
    (n <<< 1).toInt = if n.toInt < 2 ^ 62 then 2 * n.toInt else 2 * n.toInt - 2 ^ 64 := by
  have hamount : (1 : Int64).toBitVec.smod 64 = 1#64 := by decide
  have hshift : (n <<< 1).toBitVec.toNat = n.toBitVec.toNat * 2 % 2 ^ 64 := by
    rw [Int64.toBitVec_shiftLeft, hamount, BitVec.shiftLeft_eq', BitVec.toNat_shiftLeft,
      Nat.shiftLeft_eq]
    rfl
  have hword := toInt_eq n
  have hdouble := toInt_eq (n <<< 1)
  rw [hshift] at hdouble
  split at hword <;> split at hdouble <;> split <;> omega

theorem toInt_double_or_one (n : Int64) : (n <<< 1 ||| 1).toInt = (n <<< 1).toInt + 1 := by
  have hamount : (1 : Int64).toBitVec.smod 64 = 1#64 := by decide
  have hshift : (n <<< 1).toBitVec.toNat = 2 ^ 1 * (n.toBitVec.toNat % 2 ^ 63) := by
    rw [Int64.toBitVec_shiftLeft, hamount, BitVec.shiftLeft_eq', BitVec.toNat_shiftLeft,
      Nat.shiftLeft_eq]
    exact (Nat.mul_mod_mul_right 2 n.toBitVec.toNat (2 ^ 63)).trans (Nat.mul_comm _ _)
  have hor : (n <<< 1 ||| 1).toBitVec.toNat = 2 ^ 1 * (n.toBitVec.toNat % 2 ^ 63) + 1 := by
    rw [Int64.toBitVec_or, BitVec.toNat_or, hshift, Nat.two_pow_add_eq_or_of_lt (by decide)]
    rfl
  have hdouble := toInt_eq (n <<< 1)
  have hmarked := toInt_eq (n <<< 1 ||| 1)
  rw [hshift] at hdouble
  rw [hor] at hmarked
  split at hdouble <;> split at hmarked <;> omega

theorem natAbs_lt_of_ne {n : Int64} (h : n ≠ Int64.minValue) : n.toInt.natAbs < 2 ^ 63 := by
  have hne : n.toInt ≠ -2 ^ 63 := fun heq => h (Int64.toInt_inj.mp heq)
  have hlow := n.le_toInt
  have hhigh := n.toInt_lt
  omega

theorem toInt_neg_of_ne {n : Int64} (h : n ≠ Int64.minValue) : (-n).toInt = -n.toInt := by
  have hsmall := natAbs_lt_of_ne h
  rw [Int64.toInt_neg, Int.bmod_eq_of_le (by omega) (by omega)]

/-! ## The sign

Doubling a word loses its highest bit, and does no harm as long as this bit says nothing new. -/

/-- A word that has a negation is doubled in magnitude, less what the shift has lost. -/
theorem exists_signToBit? {n : Int64} (h : n ≠ Int64.minValue) :
    ∃ w, signToBit? n = some w ∧ w.toInt
      = if n.toInt.natAbs < 2 ^ 62 then (signToBit n.toInt : Int)
        else (signToBit n.toInt : Int) - 2 ^ 64 := by
  unfold signToBit? signToBit
  by_cases hneg : n < 0
  · have hvalue : n.toInt < 0 := Int64.lt_iff_toInt_lt.mp hneg
    have hnegate := toInt_neg_of_ne h
    have hdouble := toInt_double (n := -n) (by omega)
    refine ⟨_, by rw [if_pos hneg, if_neg h], ?_⟩
    rw [toInt_double_or_one, hdouble, if_pos hvalue, hnegate]
    split <;> split <;> omega
  · have hvalue : ¬ n.toInt < 0 := fun hlt => hneg (Int64.lt_iff_toInt_lt.mpr hlt)
    refine ⟨_, if_neg hneg, ?_⟩
    rw [toInt_double (by omega), if_neg hvalue]
    split <;> split <;> omega

/-! ## The loop

The loop cuts off five bits at a time. If the word is not negative it gets smaller and comes to
zero; if it is, it comes to minus one and stays there. -/

theorem high_eq_zero_iff {n : Int64} : high n = 0 ↔ n.toInt / 32 = 0 := by
  rw [← Int64.toInt_inj, toInt_high, Int64.toInt_zero]

theorem lowest_eq {n : Int64} (h : 0 ≤ n.toInt) :
    lowest n = Base64.digit
      (if n.toInt.toNat < 32 then n.toInt.toNat else n.toInt.toNat % 32 + 32) := by
  have hhigh : 0 < high n ↔ 0 < n.toInt / 32 := by
    rw [Int64.lt_iff_toInt_lt, toInt_high]
    rfl
  have hlow := toInt_low n
  have hmarked : (n &&& 31 ||| 32).toInt = (n &&& 31).toInt + 32 :=
    toInt_or_32 (by omega) (by omega)
  unfold lowest Int64.toNatClampNeg
  congr 1
  by_cases hmore : 0 < n.toInt / 32
  · rw [if_pos (hhigh.mpr hmore), hmarked, hlow, if_neg (by omega)]
    omega
  · rw [if_neg (fun hpos => hmore (hhigh.mp hpos)), hlow, if_pos (by omega)]
    omega

/-- On words that are not negative the loop ends: what is left gets smaller. -/
theorem exists_digits {n : Int64} (h : 0 ≤ n.toInt) : ∃ text, Digits n text := by
  induction hm : n.toInt.toNat using Nat.strongRecOn generalizing n with
  | ind m ih =>
    have hhigh := toInt_high n
    by_cases hend : high n = 0
    · exact ⟨_, .last hend⟩
    · have hmore := mt high_eq_zero_iff.mpr hend
      obtain ⟨text, htext⟩ := ih _ (by omega) (show 0 ≤ (high n).toInt by omega) rfl
      exact ⟨_, .more hend htext⟩

/-- The loop ends on no other word: the shift keeps the sign, so what is left is never zero. The
digits are those of the number. -/
theorem Digits.eq {n : Int64} {text : List Char} (h : Digits n text) :
    0 ≤ n.toInt ∧ text = Vlq.digits n.toInt.toNat := by
  induction h with
  | @last n hend =>
    have hsmall := high_eq_zero_iff.mp hend
    have hnonneg : 0 ≤ n.toInt := by omega
    rw [Vlq.digits, lowest_eq hnonneg, if_pos (by omega), if_pos (by omega)]
    exact ⟨hnonneg, rfl⟩
  | @more n text hmore _ ih =>
    obtain ⟨hrest, rfl⟩ := ih
    have hlarge := mt high_eq_zero_iff.mpr hmore
    have hhigh := toInt_high n
    have hnonneg : 0 ≤ n.toInt := by omega
    have hdigits : (high n).toInt.toNat = n.toInt.toNat / 32 := by omega
    refine ⟨hnonneg, ?_⟩
    rw [lowest_eq hnonneg, if_neg (by omega), hdigits]
    exact ((Vlq.digits.eq_def _).trans (if_neg (by omega))).symm

/-- **The writing of a word ends below `2 ^ 62` and nowhere else**, and the text is that of the
integer. -/
theorem writes_iff {n : Int64} {text : List Char} :
    Writes n text ↔ n.toInt.natAbs < 2 ^ 62 ∧ text = Vlq.encode n.toInt := by
  by_cases hmin : n = Int64.minValue
  · subst hmin
    refine ⟨fun ⟨w, hsign, _⟩ => ?_, fun h => absurd h.1 (by decide)⟩
    rw [show signToBit? Int64.minValue = none from rfl] at hsign
    cases hsign
  · obtain ⟨w, hsign, hw⟩ := exists_signToBit? hmin
    -- the sign form is a function of the word, so the digits are those of one number
    have hwrites : Writes n text ↔ Digits w text := by
      refine ⟨fun ⟨w', hsign', h⟩ => ?_, fun h => ⟨w, hsign, h⟩⟩
      rwa [Option.some.inj (hsign.symm.trans hsign')]
    rw [hwrites]
    by_cases hsmall : n.toInt.natAbs < 2 ^ 62
    · rw [if_pos hsmall] at hw
      have hdigits : Vlq.digits w.toInt.toNat = Vlq.encode n.toInt := by
        rw [hw, Int.toNat_natCast, Vlq.encode]
      refine ⟨fun h => ⟨hsmall, h.eq.2.trans hdigits⟩, ?_⟩
      rintro ⟨-, rfl⟩
      obtain ⟨text, h⟩ := exists_digits (show 0 ≤ w.toInt by omega)
      rwa [h.eq.2, hdigits] at h
    · rw [if_neg hsmall] at hw
      -- the shift has carried into the sign, and a number below zero has no digits
      have hbits : signToBit n.toInt < 2 ^ 64 := by
        have := natAbs_lt_of_ne hmin
        unfold signToBit
        split <;> omega
      refine ⟨fun h => ?_, fun h => absurd h.1 hsmall⟩
      have := h.eq.1
      omega

/-! ## Words in a row

Every integer below the bound is a word, and is written as the integer is; so a row of words is read
back as the row of integers. -/

theorem writes_ofInt {n : Int} (h : n.natAbs < 2 ^ 62) {text : List Char} :
    Writes (Int64.ofInt n) text ↔ text = Vlq.encode n := by
  have hvalue : (Int64.ofInt n).toInt = n := Int64.toInt_ofInt_of_le (by omega) (by omega)
  rw [writes_iff, hvalue]
  exact and_iff_right h

theorem writesAll_ofInt {ns : List Int} (h : ∀ n ∈ ns, n.natAbs < 2 ^ 62) {text : List Char} :
    WritesAll (ns.map Int64.ofInt) text ↔ text = ns.flatMap Vlq.encode := by
  induction ns generalizing text with
  | nil =>
    constructor
    · rintro ⟨⟩
      rfl
    · rintro rfl
      exact .nil
  | cons n ns ih =>
    obtain ⟨hn, hns⟩ := List.forall_mem_cons.mp h
    rw [List.map_cons, List.flatMap_cons]
    constructor
    · rintro (_ | ⟨hfirst, hothers⟩)
      rw [(writes_ofInt hn).mp hfirst, (ih hns).mp hothers]
    · rintro rfl
      exact .cons ((writes_ofInt hn).mpr rfl) ((ih hns).mpr rfl)

/-- **Quantities in words are read back.** Integers below `2 ^ 62` in magnitude are written in words
of 64 bits, one after another: no sign is moved with a loss, all the writing ends, and only with the
text of the integers. It is read back as these integers, so different lists have different texts; it
is made of base-64 digits only; and no integer's text begins that of another. -/
theorem integers?_writesAll {ns : List Int} (h : ∀ n ∈ ns, n.natAbs < 2 ^ 62) :
    (∀ n ∈ ns, ∃ w, signToBit? (Int64.ofInt n) = some w ∧ w.toInt = signToBit n)
      ∧ ∃ text, WritesAll (ns.map Int64.ofInt) text
        ∧ (∀ other, WritesAll (ns.map Int64.ofInt) other → other = text)
        ∧ text = ns.flatMap Vlq.encode
        ∧ integers? text = some ns
        ∧ (∀ c ∈ text, (Base64.digit? c).isSome = true ∧ c ≠ ',' ∧ c ≠ ';')
        ∧ (∀ ms : List Int, (∀ m ∈ ms, m.natAbs < 2 ^ 62) →
            WritesAll (ms.map Int64.ofInt) text → ms = ns)
        ∧ ∀ m n : Int, m.natAbs < 2 ^ 62 → n.natAbs < 2 ^ 62 →
            ∀ s t, Writes (Int64.ofInt m) s → Writes (Int64.ofInt n) t → s <+: t → m = n := by
  refine ⟨fun n hn => ?_, _, (writesAll_ofInt h).mpr rfl, fun _ => (writesAll_ofInt h).mp, rfl,
    integers?_flatMap_encode ns,
    fun c hc => ⟨isSome_digit?_of_mem_flatMap hc, mem_flatMap_encode hc⟩, ?_, ?_⟩
  · have hsmall := h n hn
    have hvalue : (Int64.ofInt n).toInt = n := Int64.toInt_ofInt_of_le (by omega) (by omega)
    -- only the least word has no sign bit form, and it is out of this range
    have hmin : Int64.ofInt n ≠ Int64.minValue := by
      intro heq
      rw [heq, show Int64.minValue.toInt = -2 ^ 63 by decide] at hvalue
      omega
    obtain ⟨w, hsign, hw⟩ := exists_signToBit? hmin
    rw [hvalue, if_pos hsmall] at hw
    exact ⟨w, hsign, hw⟩
  · intro ms hms htext
    have hread := integers?_flatMap_encode ms
    rw [← (writesAll_ofInt hms).mp htext, integers?_flatMap_encode ns] at hread
    exact (Option.some.inj hread).symm
  · intro m n hm hn s t hs ht hbegins
    rw [(writes_ofInt hm).mp hs, (writes_ofInt hn).mp ht] at hbegins
    exact eq_of_encode_isPrefix hbegins

/-- Both signs, the least and the greatest magnitude, and texts that end where a digit is full. -/
def extremes : List Int := [0, -1, 15, -16, 1023, 2 ^ 62 - 1, -(2 ^ 62 - 1), 0]

theorem integers?_writesAll_extremes :
    (∀ n ∈ extremes, n.natAbs < 2 ^ 62)
      ∧ ∃ text, WritesAll (extremes.map Int64.ofInt) text
        ∧ integers? text = some extremes
        ∧ ∀ c ∈ text, (Base64.digit? c).isSome = true ∧ c ≠ ',' ∧ c ≠ ';' := by
  have hsmall : ∀ n ∈ extremes, n.natAbs < 2 ^ 62 := by decide
  obtain ⟨-, text, htext, -, -, hread, hdigits, -⟩ := integers?_writesAll hsmall
  exact ⟨hsmall, text, htext, hread, hdigits⟩

end Word

end ArithScript.Vlq
