import ArithScript.SourceMap.Base64

/-!
# Variable-length quantities

An integer as base-64 digits: five bits to a digit, the lowest first, and the sixth bit set on all
digits but the last. The sign is kept in the lowest bit of the whole, so small integers of either
sign are short. Digits are never `,` or `;`, which separate the quantities of a source map.
-/

set_option autoImplicit false

namespace ArithScript.Vlq

/-- An integer with its sign moved to the lowest bit. -/
def signToBit (n : Int) : Nat :=
  if n < 0 then 2 * n.natAbs + 1 else 2 * n.natAbs

/-- The integer whose sign was moved to the lowest bit. -/
def signFromBit (n : Nat) : Int :=
  if n % 2 = 1 then -((n / 2 : Nat) : Int) else ((n / 2 : Nat) : Int)

/-- The digits of a natural number. -/
def digits (n : Nat) : List Char :=
  if n < 32 then [Base64.digit n] else Base64.digit (n % 32 + 32) :: digits (n / 32)
termination_by n

/-- The text of an integer. -/
def encode (n : Int) : List Char := digits (signToBit n)

/-- The natural number at the start of a text, and the text after it. -/
def number? : List Char → Option (Nat × List Char)
  | [] => none
  | c :: cs => do
    let n ← Base64.digit? c
    if n < 32 then return (n, cs)
    else
      let (high, rest) ← number? cs
      return (n - 32 + 32 * high, rest)

/-- The integer at the start of a text, and the text after it. -/
def decode? (cs : List Char) : Option (Int × List Char) :=
  (number? cs).map fun (n, rest) => (signFromBit n, rest)

end ArithScript.Vlq
