import ArithScript.Text.Units
import ArithScript.Json.Error

/-!
# Scanning JSON text

The leaves of the reader: blanks, words, strings and numbers. A scanner takes the text that is left
and answers with what it read and the text left after it. A failure keeps its place as the number
of bytes left, which is all that is needed to find the line and the column once the whole text is
at hand (`locate`).

Two places occur in failures: before the text that is left (`failHere`), and one byte further
(`failPast`), for a failure that has looked at that byte. Places count bytes and the text is made of
characters, so one byte further may be inside a character.

Strings are scanned by a machine that takes one character at a time. What it is in the middle of is
its state: an escape, the digits of an escape, the second half of a surrogate pair.
-/

set_option autoImplicit false

namespace ArithScript.Json

/-- A failure to read: its cause, and the number of bytes after its place. -/
structure Failure where
  cause : Cause
  left : Nat
  deriving DecidableEq, Repr

/-- The outcome of reading: a value and the text after it, or a failure. -/
abbrev Reading (α : Type) := Except Failure (α × List Char)

/-- A failure at the start of the text that is left. -/
def failHere {α : Type} (cause : Cause) (rest : List Char) : Except Failure α :=
  .error ⟨cause, Text.byteLength rest⟩

/-- A failure one byte into the text that is left, or at its end if there is none. -/
def failPast {α : Type} (cause : Cause) (rest : List Char) : Except Failure α :=
  .error ⟨cause, Text.byteLength rest - 1⟩

/-- The line, from one, and the column of the place after the first `offset` bytes of a text that
goes on from the given line and column. -/
def locateFrom (line column : Nat) : Nat → List Char → Nat × Nat
  | 0, _ => (line, column)
  | offset, [] => (line, column + offset)
  | offset, c :: cs =>
    if offset < c.utf8Size then (line, column + offset)
    else if c = '\n' then locateFrom (line + 1) 0 (offset - 1) cs
    else locateFrom line (column + c.utf8Size) (offset - c.utf8Size) cs

/-- A failure with its place in the whole text. -/
def Failure.locate (text : List Char) (failure : Failure) : Error :=
  let (line, column) := locateFrom 1 0 (Text.byteLength text - failure.left) text
  ⟨failure.cause, line, column⟩

/-! ## Blanks and words -/

/-- The characters that may stand between tokens. -/
def isSpace (c : Char) : Bool := c = ' ' || c = '\n' || c = '\r' || c = '\t'

/-- The text after the blanks it starts with. -/
def skipSpace (cs : List Char) : List Char := cs.dropWhile isSpace

/-- The rest of a word whose first letter has been read. -/
def word : List Char → List Char → Reading Unit
  | [], cs => .ok ((), cs)
  | _ :: _, [] => failHere .endInValue []
  | w :: ws, c :: cs => if c = w then word ws cs else failPast .expectedIdent (c :: cs)

/-! ## Strings -/

/-- The character that a letter stands for after a backslash. -/
def simpleEscape? (c : Char) : Option Char :=
  if c = '"' || c = '\\' || c = '/' then some c
  else if c = 'b' then some '\x08'
  else if c = 'f' then some '\x0c'
  else if c = 'n' then some '\n'
  else if c = 'r' then some '\r'
  else if c = 't' then some '\t'
  else none

/-- The value of a hexadecimal digit. -/
def hexDigit? (c : Char) : Option Nat :=
  let n := c.toNat
  if 48 ≤ n ∧ n ≤ 57 then some (n - 48)
  else if 65 ≤ n ∧ n ≤ 70 then some (n - 55)
  else if 97 ≤ n ∧ n ≤ 102 then some (n - 87)
  else none

/-- Whether a UTF-16 unit is the first of a surrogate pair. -/
def isLeading (unit : Nat) : Bool := 0xD800 ≤ unit && unit ≤ 0xDBFF

/-- Whether a UTF-16 unit is the second of a surrogate pair. -/
def isTrailing (unit : Nat) : Bool := 0xDC00 ≤ unit && unit ≤ 0xDFFF

/-- The character of a surrogate pair. -/
def pairChar (leading trailing : Nat) : Char :=
  Char.ofNat ((leading - 0xD800) * 0x400 + (trailing - 0xDC00) + 0x10000)

/-- What the string machine is in the middle of. -/
inductive StringState where
  /-- Nothing: the next character stands for itself, ends the string or starts an escape. -/
  | plain
  /-- A backslash has been read. -/
  | escape
  /-- An escape by number, with the leading surrogate before it, the digits read so far and their
  value. -/
  | hex (leading : Option Nat) (count value : Nat)
  /-- A leading surrogate has been read, and a backslash is due. -/
  | pair (leading : Nat)
  /-- A leading surrogate and a backslash have been read, and the letter `u` is due. -/
  | pairEscape (leading : Nat)
  deriving DecidableEq, Repr

/-- The failure of an escape by number that lacks `missing` digits. Four bytes belong to the escape
whatever they are; if the text is shorter, it ends inside the string. -/
def hexFailure {α : Type} (missing : Nat) (rest : List Char) : Except Failure α :=
  let bytes := Text.byteLength rest
  if missing ≤ bytes then .error ⟨.invalidEscape, bytes - missing⟩ else .error ⟨.endInString, 0⟩

/-- The string machine, with the characters read so far in reverse. -/
def characters : StringState → List Char → List Char → Reading (List Char)
  | _, _, [] => failHere .endInString []
  | .plain, read, c :: cs =>
    if c = '"' then .ok (read.reverse, cs)
    else if c = '\\' then characters .escape read cs
    else if c.toNat < 0x20 then failHere .controlCharacter cs
    else characters .plain (c :: read) cs
  | .escape, read, c :: cs =>
    if c = 'u' then characters (.hex none 0 0) read cs
    else match simpleEscape? c with
      | some e => characters .plain (e :: read) cs
      | none => failPast .invalidEscape (c :: cs)
  | .hex leading count value, read, c :: cs =>
    match hexDigit? c with
    | none => hexFailure (4 - count) (c :: cs)
    | some digit =>
      let unit := value * 16 + digit
      if count < 3 then characters (.hex leading (count + 1) unit) read cs
      else match leading with
        | some first =>
          if isTrailing unit then characters .plain (pairChar first unit :: read) cs
          else failHere .loneSurrogate cs
        | none =>
          if isTrailing unit then failHere .loneSurrogate cs
          else if isLeading unit then characters (.pair unit) read cs
          else characters .plain (Char.ofNat unit :: read) cs
  | .pair leading, read, c :: cs =>
    if c = '\\' then characters (.pairEscape leading) read cs
    else failPast .endOfHexEscape (c :: cs)
  | .pairEscape leading, read, c :: cs =>
    if c = 'u' then characters (.hex (some leading) 0 0) read cs
    else failPast .endOfHexEscape (c :: cs)

/-- The rest of a string whose opening quotation mark has been read. -/
def string (cs : List Char) : Reading String :=
  (characters .plain [] cs).map fun (read, rest) => (String.ofList read, rest)

/-! ## Numbers -/

/-- A number as read: whole numbers that fit into 64 bits stay exact. -/
inductive Number where
  | integer (value : Int)
  | real (value : Double)
  deriving DecidableEq, Repr

/-- The value of a decimal digit. -/
def digit? (c : Char) : Option Nat :=
  if 48 ≤ c.toNat ∧ c.toNat ≤ 57 then some (c.toNat - 48) else none

/-- Whether a text starts with a digit. -/
def startsWithDigit : List Char → Bool
  | [] => false
  | c :: _ => (digit? c).isSome

/-- The text after the digits it starts with. -/
def skipDigits (cs : List Char) : List Char := cs.dropWhile fun c => (digit? c).isSome

/-- The greatest significand that is kept. -/
def maxSignificand : Nat := Nat.pow 2 64 - 1

/-- The digits of the whole part, after `significand`: the significand as long as it fits, and the
number of digits dropped from the first on that does not. -/
def wholeDigits (significand dropped : Nat) : List Char → (Nat × Nat) × List Char
  | [] => ((significand, dropped), [])
  | c :: cs =>
    match digit? c with
    | none => ((significand, dropped), c :: cs)
    | some d =>
      if dropped = 0 ∧ significand * 10 + d ≤ maxSignificand then
        wholeDigits (significand * 10 + d) 0 cs
      else
        wholeDigits significand (dropped + 1) cs

/-- The digits of the fraction: the significand as long as it fits, and the number of digits that
went into it. Once one digit is dropped (`full`), all later ones are. -/
def fractionDigits (significand places : Nat) (full : Bool) : List Char → (Nat × Nat) × List Char
  | [] => ((significand, places), [])
  | c :: cs =>
    match digit? c with
    | none => ((significand, places), c :: cs)
    | some d =>
      if !full && significand * 10 + d ≤ maxSignificand then
        fractionDigits (significand * 10 + d) (places + 1) false cs
      else
        fractionDigits significand places true cs

/-- The greatest exponent that is kept. -/
def maxExponent : Nat := Nat.pow 2 31 - 1

/-- The digits of an exponent, after `exponent`; `none` directly after the digit with which it
grows too large. -/
def exponentDigits (exponent : Nat) : List Char → Option Nat × List Char
  | [] => (some exponent, [])
  | c :: cs =>
    match digit? c with
    | none => (some exponent, c :: cs)
    | some d =>
      if exponent * 10 + d ≤ maxExponent then exponentDigits (exponent * 10 + d) cs else (none, cs)

/-- The double nearest to a power of ten. -/
def powerOfTen (k : Nat) : Double := Double.ofNat (Nat.pow 10 k)

/-- A double divided by a power of ten, in steps of at most `10 ^ 308`. -/
def shrink (x : Double) (k : Nat) : Double :=
  if k ≤ 308 then x.div (powerOfTen k)
  else if x.isZero then x
  else shrink (x.div (powerOfTen 308)) (k - 308)
termination_by k

/-- A significand times a power of ten, rounded once for the significand and once for each step;
`none` if it is too large for a double. -/
def scale? (significand : Nat) (exponent : Int) : Option Double :=
  let x := Double.ofNat significand
  if exponent < 0 then some (shrink x (-exponent).toNat)
  else if exponent ≤ 308 then
    let scaled := x.mul (powerOfTen exponent.toNat)
    if scaled.isInfinite then none else some scaled
  else if x.isZero then some x
  else none

/-- A double with its sign. -/
def signed (negative : Bool) (x : Double) : Double := if negative then x.negate else x

/-- The number with the given significand and exponent. -/
def realNumber (negative : Bool) (significand : Nat) (exponent : Int) (rest : List Char) :
    Reading Number :=
  match scale? significand exponent with
  | some x => .ok (.real (signed negative x), rest)
  | none => failHere .numberOutOfRange rest

/-- A whole number: an integer if it fits into 64 bits, with the sign if there is one. Negative
zero is no integer. -/
def wholeNumber (negative : Bool) (significand : Nat) : Number :=
  if !negative then .integer significand
  else if significand = 0 ∨ Nat.pow 2 63 < significand then .real (Double.ofNat significand).negate
  else .integer (-significand)

/-- A number from the digits of its exponent on, after the sign. -/
def exponentValue (negative : Bool) (significand : Nat) (exponent : Int) (shrinks : Bool)
    (cs : List Char) : Reading Number :=
  match cs with
  | [] => failHere .endInValue []
  | c :: rest =>
    match digit? c with
    | none => failPast .invalidNumber (c :: rest)
    | some d =>
      match exponentDigits d rest with
      | (some written, rest) =>
        realNumber negative significand (if shrinks then exponent - written else exponent + written)
          rest
      | (none, rest) =>
        if significand ≠ 0 ∧ !shrinks then failHere .numberOutOfRange rest
        else .ok (.real (signed negative (Double.ofNat 0)), skipDigits rest)

/-- A number from the exponent on, after the letter `e`. -/
def exponentPart (negative : Bool) (significand : Nat) (exponent : Int) (cs : List Char) :
    Reading Number :=
  match cs with
  | '+' :: rest => exponentValue negative significand exponent false rest
  | '-' :: rest => exponentValue negative significand exponent true rest
  | _ => exponentValue negative significand exponent false cs

/-- Whether a character starts an exponent. -/
def isExponentMark (c : Char) : Bool := c = 'e' || c = 'E'

/-- A number from the fraction on, after the point. -/
def fractionPart (negative : Bool) (significand : Nat) (exponent : Int) (cs : List Char) :
    Reading Number :=
  match cs with
  | [] => failPast .endInValue []
  | c :: _ =>
    if (digit? c).isNone then failPast .invalidNumber cs
    else
      let ((significand, places), rest) := fractionDigits significand 0 false cs
      match rest with
      | e :: after =>
        if isExponentMark e then exponentPart negative significand (exponent - places) after
        else realNumber negative significand (exponent - places) rest
      | [] => realNumber negative significand (exponent - places) []

/-- A number that ends with its whole part, of which `dropped` digits were dropped. -/
def wholePart (negative : Bool) (significand dropped : Nat) (cs : List Char) : Reading Number :=
  if dropped = 0 then .ok (wholeNumber negative significand, cs)
  else realNumber negative significand dropped cs

/-- A number after its whole part, of which `dropped` digits were dropped. -/
def afterWhole (negative : Bool) (significand dropped : Nat) (cs : List Char) : Reading Number :=
  match cs with
  | [] => wholePart negative significand dropped []
  | c :: rest =>
    if c = '.' then fractionPart negative significand dropped rest
    else if isExponentMark c then exponentPart negative significand dropped rest
    else wholePart negative significand dropped cs

/-- A number after its sign. -/
def number (negative : Bool) (cs : List Char) : Reading Number :=
  match cs with
  | [] => failHere .endInValue []
  | c :: rest =>
    match digit? c with
    | none => failPast .invalidNumber cs
    | some 0 =>
      if startsWithDigit rest then failPast .invalidNumber rest else afterWhole negative 0 0 rest
    | some d =>
      let ((significand, dropped), rest) := wholeDigits d 0 rest
      afterWhole negative significand dropped rest

end ArithScript.Json
