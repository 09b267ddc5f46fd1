/-!
# Doubles

A double is its 64 bits: a sign, eleven bits of exponent and fifty-two of fraction. Arithmetic on
doubles is exact arithmetic on rationals followed by one rounding, and the rounding is
`Double.ofRatio`: a quotient of natural numbers goes to the nearest double, a half to the even
neighbour, and what is too large to infinity. Signs are kept apart, because no operation that the
library needs mixes them.

The magnitude of a double, its bits without the sign, grows with its value; so the double above a
finite one is found by adding one to the magnitude, and a carry out of the fraction lands where it
should.
-/

set_option autoImplicit false

namespace ArithScript

/-- A double-precision number, given by its bits. -/
structure Double where
  bits : UInt64
  deriving DecidableEq, Repr, Inhabited

namespace Double

/-- The magnitude of infinity: every exponent bit and no fraction bit. -/
def infinityMagnitude : Nat := 0x7FF * Nat.pow 2 52

/-- The bits without the sign. -/
def magnitude (x : Double) : Nat := x.bits.toNat % Nat.pow 2 63

/-- Whether the sign bit is set. -/
def signBit (x : Double) : Bool := x.bits.toNat / Nat.pow 2 63 == 1

/-- The double with a given sign and magnitude. -/
def ofMagnitude (negative : Bool) (magnitude : Nat) : Double :=
  ⟨UInt64.ofNat (if negative then Nat.pow 2 63 + magnitude else magnitude)⟩

/-- Whether a double is not a number. -/
def isNaN (x : Double) : Bool := infinityMagnitude < x.magnitude

/-- Whether a double is an infinity of either sign. -/
def isInfinite (x : Double) : Bool := x.magnitude == infinityMagnitude

/-- Whether a double is a number and no infinity. -/
def isFinite (x : Double) : Bool := x.magnitude < infinityMagnitude

/-- Whether a double is a zero of either sign. -/
def isZero (x : Double) : Bool := x.magnitude == 0

/-- Whether a double lies below zero. Neither zero does, nor does what is not a number. -/
def isNegative (x : Double) : Bool := x.signBit && !x.isNaN && !x.isZero

/-- The double of the opposite sign. -/
def negate (x : Double) : Double := ofMagnitude (!x.signBit) x.magnitude

/-- The exponent bits. -/
def exponentField (x : Double) : Nat := x.magnitude / Nat.pow 2 52

/-- The whole number `m` of the value `m * 2 ^ q` of a finite double, sign apart. -/
def significand (x : Double) : Nat :=
  if x.exponentField = 0 then x.magnitude else Nat.pow 2 52 + x.magnitude % Nat.pow 2 52

/-- The exponent `q` of the value `m * 2 ^ q` of a finite double. -/
def exponent (x : Double) : Int :=
  if x.exponentField = 0 then -1074 else (x.exponentField : Int) - 1075

/-- The numerator of the value of a finite double, sign apart. -/
def numerator (x : Double) : Nat := x.significand * Nat.pow 2 x.exponent.toNat

/-- The denominator of the value of a finite double. -/
def denominator (x : Double) : Nat := Nat.pow 2 (-x.exponent).toNat

/-! ## Rounding -/

/-- The whole number nearest to a quotient; a half goes to the even neighbour. -/
def roundHalfEven (num den : Nat) : Nat :=
  let quotient := num / den
  let rest := num % den
  if 2 * rest < den ∨ (2 * rest = den ∧ quotient % 2 = 0) then quotient else quotient + 1

/-- The greatest `e` with `2 ^ e` not above a positive quotient. -/
def floorLog2 (num den : Nat) : Int :=
  let estimate : Int := (num.log2 : Int) - (den.log2 : Int)
  if den * Nat.pow 2 estimate.toNat ≤ num * Nat.pow 2 (-estimate).toNat then estimate
  else estimate - 1

/-- The magnitude of the double nearest to a quotient. The exponent `q` is the one that leaves
fifty-three bits before the point, or the least there is; the bits of `m * 2 ^ q` are then
`(q + 1074) * 2 ^ 52 + m`, whether or not `m` has its top bit, and also if rounding carried `m` up
to `2 ^ 53`. -/
def magnitudeOfRatio (num den : Nat) : Nat :=
  if num = 0 then 0
  else
    let q := max (floorLog2 num den - 52) (-1074)
    let m := roundHalfEven (num * Nat.pow 2 (-q).toNat) (den * Nat.pow 2 q.toNat)
    min ((q + 1074).toNat * Nat.pow 2 52 + m) infinityMagnitude

/-- The double nearest to a quotient; a half goes to the even neighbour. -/
def ofRatio (num den : Nat) : Double := ofMagnitude false (magnitudeOfRatio num den)

/-- The double nearest to a whole number. -/
def ofNat (n : Nat) : Double := ofRatio n 1

/-- The double nearest to an integer. -/
def ofInt (n : Int) : Double := ofMagnitude (n < 0) (magnitudeOfRatio n.natAbs 1)

/-- The rounded product of two finite doubles, signs apart. -/
def mul (x y : Double) : Double :=
  ofRatio (x.numerator * y.numerator) (x.denominator * y.denominator)

/-- The rounded quotient of two finite doubles, signs apart; the second is not zero. -/
def div (x y : Double) : Double :=
  ofRatio (x.numerator * y.denominator) (x.denominator * y.numerator)

end Double

end ArithScript
