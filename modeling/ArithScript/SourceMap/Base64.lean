/-!
# Base 64

Bytes as text, six bits to a character, in groups of three bytes and four characters. A group that
is not full is filled up with `=`. Decoding accepts whole groups only.
-/

set_option autoImplicit false

namespace ArithScript.Base64

/-- The digit for a number below 64. -/
def digit (n : Nat) : Char :=
  if n < 26 then Char.ofNat (n + 65)
  else if n < 52 then Char.ofNat (n + 71)
  else if n < 62 then Char.ofNat (n - 4)
  else if n = 62 then '+'
  else '/'

/-- The number of a digit. -/
def digit? (c : Char) : Option Nat :=
  let n := c.toNat
  if 65 ≤ n ∧ n ≤ 90 then some (n - 65)
  else if 97 ≤ n ∧ n ≤ 122 then some (n - 71)
  else if 48 ≤ n ∧ n ≤ 57 then some (n + 4)
  else if c = '+' then some 62
  else if c = '/' then some 63
  else none

/-- The digits of the lowest `6 * count` bits of a number, the highest first. -/
def digits : Nat → Nat → List Char
  | 0, _ => []
  | count + 1, n => digit (n / Nat.pow 64 count % 64) :: digits count n

/-- The text of some bytes. -/
def encode : List UInt8 → List Char
  | a :: b :: c :: rest =>
    digits 4 (a.toNat * 0x10000 + b.toNat * 0x100 + c.toNat) ++ encode rest
  | [a, b] => digits 3 (a.toNat * 0x400 + b.toNat * 4) ++ ['=']
  | [a] => digits 2 (a.toNat * 0x10) ++ ['=', '=']
  | [] => []

/-- The bytes of a text; `none` if it is not made of whole groups. -/
def decode? : List Char → Option (List UInt8)
  | [] => some []
  | [a, b, '=', '='] => do
    let n := (← digit? a) * 0x40 + (← digit? b)
    return [UInt8.ofNat (n / 0x10)]
  | [a, b, c, '='] => do
    let n := (← digit? a) * 0x1000 + (← digit? b) * 0x40 + (← digit? c)
    return [UInt8.ofNat (n / 0x400), UInt8.ofNat (n / 4 % 0x100)]
  | a :: b :: c :: d :: rest => do
    let n := (← digit? a) * 0x40000 + (← digit? b) * 0x1000 + (← digit? c) * 0x40 + (← digit? d)
    let bytes ← decode? rest
    return UInt8.ofNat (n / 0x10000) :: UInt8.ofNat (n / 0x100 % 0x100) :: UInt8.ofNat (n % 0x100)
      :: bytes
  | _ => none

end ArithScript.Base64
