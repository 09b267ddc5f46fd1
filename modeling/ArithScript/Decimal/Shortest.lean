import ArithScript.Double

/-!
# Shortest decimals

The shortest decimal of a positive finite double is the one with the fewest digits that rounds back
to it. Decimals with `n` digits in the decade of the double form a grid; of a grid only the two
neighbours of the double need a test, because rounding keeps order: if any point of the grid rounds
back to the double, one of its two neighbours does. The first grid with a hit gives the result, and
of two hits the nearer one wins. When both are equally near the choice is the reader's, so it is a
parameter.
-/

set_option autoImplicit false

namespace ArithScript

/-- The number `digits * 10 ^ exponent`. -/
structure Decimal where
  digits : Nat
  exponent : Int
  deriving DecidableEq, Repr, Inhabited

namespace Decimal

/-- What to do when a number lies exactly between two candidates. -/
inductive Tie where
  /-- Take the larger candidate. -/
  | upward
  /-- Take the candidate with an even last digit. -/
  | toEven
  deriving DecidableEq, Repr

/-- The numerator of a decimal. -/
def numerator (d : Decimal) : Nat := d.digits * Nat.pow 10 d.exponent.toNat

/-- The denominator of a decimal. -/
def denominator (d : Decimal) : Nat := Nat.pow 10 (-d.exponent).toNat

/-- The magnitude of the double that a decimal rounds to. -/
def magnitude (d : Decimal) : Nat := Double.magnitudeOfRatio d.numerator d.denominator

/-- The number of decimal digits of a natural number. -/
def digitCount (n : Nat) : Nat := (Nat.toDigits 10 n).length

/-- The greatest `e` with `10 ^ e` not above a positive quotient. -/
def floorLog10 (num den : Nat) : Int :=
  if den ≤ num then (digitCount (num / den) : Int) - 1
  else
    let count := digitCount (den / num)
    if den = num * Nat.pow 10 (count - 1) then 1 - (count : Int) else -(count : Int)

/-- Which of two neighbours on a grid to take, the number lying `rest / den` of a step above the
lower one; `none` if neither reads back. -/
def choose (tie : Tie) (low rest den : Nat) (lowReads highReads : Bool) : Option Nat :=
  match lowReads, highReads with
  | true, false => some low
  | false, true => some (low + 1)
  | false, false => none
  | true, true =>
    if 2 * rest < den then some low
    else if den < 2 * rest then some (low + 1)
    else match tie with
      | .upward => some (low + 1)
      | .toEven => some (if low % 2 = 0 then low else low + 1)

/-- The candidate with `count` digits for the double of the given magnitude and value `num / den`,
if one reads back. A candidate that has grown to the next power of ten is written with the single
digit one. -/
def candidate (tie : Tie) (num den magnitude count : Nat) : Option Decimal :=
  let unit := floorLog10 num den - ((count : Int) - 1)
  let top := num * Nat.pow 10 (-unit).toNat
  let bottom := den * Nat.pow 10 unit.toNat
  let low := top / bottom
  let rest := top % bottom
  let reads (digits : Nat) : Bool := (Decimal.mk digits unit).magnitude == magnitude
  (choose tie low rest bottom (reads low) (reads (low + 1))).map fun digits =>
    if digits = Nat.pow 10 count then ⟨1, unit + count⟩ else ⟨digits, unit⟩

/-- The first candidate among those with `count`, `count + 1`, … digits, for `fuel` counts. -/
def firstCandidate (tie : Tie) (num den magnitude : Nat) : Nat → Nat → Option Decimal
  | 0, _ => none
  | fuel + 1, count =>
    match candidate tie num den magnitude count with
    | some d => some d
    | none => firstCandidate tie num den magnitude fuel (count + 1)

/-- The shortest decimal that rounds to the magnitude of a finite double other than zero. Seventeen
digits always suffice. -/
def shortest (tie : Tie) (x : Double) : Decimal :=
  (firstCandidate tie x.numerator x.denominator x.magnitude 17 1).getD ⟨x.numerator, 0⟩

end Decimal

end ArithScript
