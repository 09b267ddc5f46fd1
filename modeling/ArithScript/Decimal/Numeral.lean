import ArithScript.Decimal.Shortest

/-!
# Numerals

Decimals have two layouts. The positional one never has an exponent: zeros fill the places up to the
point. The scientific one has a single digit before the point and an exponent with its sign.

A numeral has the fewest digits that read back as the same double. In the generated script it is
always positional and without a trailing point; both zeros are written `0`, and what is not finite
is written as the script's constant for it. In JSON text, decades from 10⁻⁵ to 10¹⁵ are written
positionally and always with a point, the others scientifically. JSON has no word for what is not
finite, so that is written `null`.
-/

set_option autoImplicit false

namespace ArithScript

/-! ## Layouts -/

namespace Decimal

/-- The digits of a decimal as characters. -/
def digitChars (d : Decimal) : List Char := Nat.toDigits 10 d.digits

/-- The exponent of the first digit. -/
def leadingExponent (d : Decimal) : Int := d.exponent + (d.digitChars.length : Int) - 1

/-- A run of zeros. -/
def zeros (count : Nat) : List Char := List.replicate count '0'

/-- The positional layout: `120`, `1.5`, `0.0025`. -/
def positional (d : Decimal) : List Char :=
  let digits := d.digitChars
  let places := (-d.exponent).toNat
  if 0 ≤ d.exponent then
    digits ++ zeros d.exponent.toNat
  else if places < digits.length then
    digits.take (digits.length - places) ++ '.' :: digits.drop (digits.length - places)
  else
    '0' :: '.' :: zeros (places - digits.length) ++ digits

/-- The scientific layout: `1e+16`, `1.5e-7`. -/
def scientific (d : Decimal) : List Char :=
  let fraction := d.digitChars.drop 1
  let point := if fraction.isEmpty then [] else '.' :: fraction
  let sign := if d.leadingExponent < 0 then '-' else '+'
  d.digitChars.take 1 ++ point ++ 'e' :: sign :: Nat.toDigits 10 d.leadingExponent.natAbs

end Decimal

/-! ## Numerals of the script -/

/-- The numeral of a double in the script. -/
def numeral (x : Double) : List Char :=
  if x.isNaN then "NaN".toList
  else
    let digits :=
      if x.isInfinite then "Infinity".toList
      else if x.isZero then ['0']
      else (Decimal.shortest .upward x).positional
    if x.isNegative then '-' :: digits else digits

/-! ## Numerals of JSON texts -/

namespace Json

/-- The numeral of a shortest decimal. -/
def decimalNumeral (d : Decimal) : List Char :=
  if -5 ≤ d.leadingExponent ∧ d.leadingExponent ≤ 15 then
    if 0 ≤ d.exponent then d.positional ++ ['.', '0'] else d.positional
  else
    d.scientific

/-- The numeral of a double. -/
def realNumeral (x : Double) : List Char :=
  if x.isFinite then
    let digits :=
      if x.isZero then ['0', '.', '0'] else decimalNumeral (Decimal.shortest .toEven x)
    if x.signBit then '-' :: digits else digits
  else
    "null".toList

/-- The numeral of an integer. -/
def integerNumeral (n : Int) : List Char :=
  if n < 0 then '-' :: Nat.toDigits 10 n.natAbs else Nat.toDigits 10 n.natAbs

end Json

end ArithScript
