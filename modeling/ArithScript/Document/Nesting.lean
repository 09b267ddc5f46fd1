import ArithScript.Json.Error

/-!
# Nesting of a document text

There are two reasons for which no script is generated: the text is no document, or an expression is
nested deeper than the caller allows.

Before a document is read, the brackets of its text are counted: a text whose brackets lie deeper
than any document with expressions of the allowed height needs is refused at once. Brackets inside
strings do not count. Two brackets are allowed for each level of an expression, one for the
expression and one for a list of arguments around it, and sixteen for what surrounds expressions.

The count goes over the bytes of the text. Quotation marks, backslashes and brackets are bytes of
their own, and no other character has a byte that looks like one of them.
-/

set_option autoImplicit false

namespace ArithScript

/-! ## Refusals -/

/-- An expression, or the text that would hold it, is nested too deeply. -/
structure NestingTooDeep where
  /-- The greatest height that was allowed. -/
  limit : Nat
  deriving DecidableEq, Repr

/-- The wording of the nesting limit. -/
def NestingTooDeep.message (e : NestingTooDeep) : String :=
  "Expression nesting exceeds the limit of " ++ Json.naturalText e.limit ++ " levels"

/-- Why no script is generated. -/
inductive Refusal where
  | invalidDocument (error : Json.Error)
  | nestingTooDeep (error : NestingTooDeep)
  deriving DecidableEq, Repr

/-- The wording of a refusal. -/
def Refusal.message : Refusal → String
  | .invalidDocument error => "Invalid document: " ++ error.message
  | .nestingTooDeep error => error.message

/-! ## Counting brackets -/

/-- The greatest limit; larger ones are cut down to it. -/
def maxNesting : Nat := Nat.pow 2 64 - 1

/-- The number of nested brackets allowed for expressions of the given height. -/
def nestingLimit (maxDepth : Nat) : Nat := min (2 * maxDepth + 16) maxNesting

/-- Where the count of brackets is. -/
structure BracketCount where
  /-- The brackets that are open. -/
  depth : Nat
  inString : Bool
  /-- After a backslash in a string. -/
  escaped : Bool
  deriving DecidableEq, Repr

namespace BracketCount

/-- Before the first byte. -/
def start : BracketCount := ⟨0, false, false⟩

/-- Goes over a byte; there is no way on where a bracket lies deeper than the limit. -/
def step (limit : Nat) (count : BracketCount) (byte : UInt8) : Option BracketCount :=
  if count.inString then
    if count.escaped then some { count with escaped := false }
    else if byte = '\\'.toUInt8 then some { count with escaped := true }
    else if byte = '"'.toUInt8 then some { count with inString := false }
    else some count
  else if byte = '"'.toUInt8 then some { count with inString := true }
  else if byte = '\x7b'.toUInt8 || byte = '['.toUInt8 then
    if limit < count.depth + 1 then none else some { count with depth := count.depth + 1 }
  else if byte = '\x7d'.toUInt8 || byte = ']'.toUInt8 then
    some { count with depth := count.depth - 1 }
  else some count

/-- Goes over bytes. -/
def steps (limit : Nat) (count : BracketCount) (bytes : List UInt8) : Option BracketCount :=
  bytes.foldlM (step limit) count

end BracketCount

/-- Refuses a text whose brackets are nested too deeply for expressions of the given height. -/
def checkNesting (text : List Char) (maxDepth : Nat) : Except NestingTooDeep Unit :=
  match BracketCount.start.steps (nestingLimit maxDepth) (text.flatMap String.utf8EncodeChar) with
  | some _ => .ok ()
  | none => .error ⟨maxDepth⟩

end ArithScript
