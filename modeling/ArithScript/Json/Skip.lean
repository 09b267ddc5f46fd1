import ArithScript.Json.Scan

/-!
# Skipping JSON values

A member that nobody asks for is passed over without being read into memory. Skipping checks the
form of the text and nothing else: numbers may have any size and escapes may be lone surrogates. It
also looks one token less far ahead than reading does, so some texts that are no JSON are refused
for another cause: after a comma the next value or name is due at once, whatever stands there.
-/

set_option autoImplicit false

namespace ArithScript.Json

/-- What the skipping machine is in the middle of. -/
inductive SkipState where
  | plain
  /-- A backslash has been read. -/
  | escape
  /-- An escape by number, with the digits read so far. -/
  | hex (count : Nat)
  deriving DecidableEq, Repr

/-- The text after a string whose opening quotation mark has been read. -/
def skipString : SkipState → List Char → Except Failure (List Char)
  | _, [] => failHere .endInString []
  | .plain, c :: cs =>
    if c = '"' then .ok cs
    else if c = '\\' then skipString .escape cs
    else if c.toNat < 0x20 then failHere .controlCharacter (c :: cs)
    else skipString .plain cs
  | .escape, c :: cs =>
    if c = 'u' then skipString (.hex 0) cs
    else match simpleEscape? c with
      | some _ => skipString .plain cs
      | none => failPast .invalidEscape (c :: cs)
  | .hex count, c :: cs =>
    match hexDigit? c with
    | none => hexFailure (4 - count) (c :: cs)
    | some _ => if count < 3 then skipString (.hex (count + 1)) cs else skipString .plain cs

/-- The text after digits of which there has to be one. -/
def skipExponent (cs : List Char) : Except Failure (List Char) :=
  let digits :=
    match cs with
    | '+' :: rest => rest
    | '-' :: rest => rest
    | _ => cs
  match digits with
  | [] => failHere .invalidNumber []
  | c :: rest => if (digit? c).isSome then .ok (skipDigits rest) else failPast .invalidNumber digits

/-- The text after what follows the whole part of a number. -/
def skipAfterWhole (cs : List Char) : Except Failure (List Char) :=
  match cs with
  | [] => .ok []
  | c :: rest =>
    if c = '.' then
      if startsWithDigit rest then
        match skipDigits rest with
        | [] => .ok []
        | e :: after => if isExponentMark e then skipExponent after else .ok (e :: after)
      else
        failPast .invalidNumber rest
    else if isExponentMark c then skipExponent rest
    else .ok cs

/-- The text after a number whose sign has been read. -/
def skipNumber (cs : List Char) : Except Failure (List Char) :=
  match cs with
  | [] => failHere .invalidNumber []
  | c :: rest =>
    match digit? c with
    | none => failPast .invalidNumber cs
    | some 0 =>
      if startsWithDigit rest then failPast .invalidNumber rest else skipAfterWhole rest
    | some _ => skipAfterWhole (skipDigits rest)

/-- The text after a value that is no array and no object. -/
def skipScalar (cs : List Char) : Except Failure (List Char) :=
  match cs with
  | [] => failPast .endInValue []
  | c :: rest =>
    if c = 'n' then (word ['u', 'l', 'l'] rest).map Prod.snd
    else if c = 't' then (word ['r', 'u', 'e'] rest).map Prod.snd
    else if c = 'f' then (word ['a', 'l', 's', 'e'] rest).map Prod.snd
    else if c = '-' then skipNumber rest
    else if (digit? c).isSome then skipNumber cs
    else if c = '"' then skipString .plain rest
    else failPast .expectedValue cs

/-- The text after the name of a member and its colon. -/
def skipName (cs : List Char) : Except Failure (List Char) :=
  match skipSpace cs with
  | [] => failPast .endInObject []
  | c :: rest =>
    if c = '"' then do
      let after ← skipString .plain rest
      match skipSpace after with
      | [] => failPast .endInObject []
      | ':' :: value => .ok value
      | other => failPast .expectedColon other
    else failPast .keyMustBeString (c :: rest)

/-- The text after the rest of an array or object, up to and with its closing bracket. `item` skips
one element or member, and `first` tells whether one may be missing. The rounds are bounded by a
text: each takes a character at least, so when the bound is used up the text is as well. -/
def skipItems (close : Char) (unclosed ended : Cause)
    (item : List Char → Except Failure (List Char)) :
    List Char → Bool → List Char → Except Failure (List Char)
  | [], _, cs => failPast ended cs
  | _ :: bound, first, cs =>
    match skipSpace cs with
    | [] => failPast ended []
    | c :: rest =>
      if c = close then .ok rest
      else if first then do
        skipItems close unclosed ended item bound false (← item (c :: rest))
      else if c = ',' then do
        skipItems close unclosed ended item bound false (← item rest)
      else failPast unclosed (c :: rest)

/-- The text after a value with at most `depth` nested arrays and objects. -/
def skipValue : Nat → List Char → Except Failure (List Char)
  | depth, cs =>
    match skipSpace cs with
    | [] => failPast .endInValue []
    | c :: rest =>
      if c = '[' then
        match depth with
        | 0 => failPast .recursionLimit (c :: rest)
        | depth + 1 =>
          skipItems ']' .expectedListEnd .endInList (skipValue depth) rest true rest
      else if c = '\x7b' then
        match depth with
        | 0 => failPast .recursionLimit (c :: rest)
        | depth + 1 =>
          skipItems '\x7d' .expectedObjectEnd .endInObject
            (fun cs => do skipValue depth (← skipName cs)) rest true rest
      else skipScalar (c :: rest)

/-- The text after a value of any depth: a text has no more nested brackets than characters. -/
def skip (cs : List Char) : Except Failure (List Char) := skipValue cs.length cs

end ArithScript.Json
