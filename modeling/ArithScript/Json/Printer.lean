import ArithScript.Decimal.Numeral
import ArithScript.Json.Value

/-!
# Printing JSON values

The compact text of a value: no blanks, members in their order, and in strings no escapes but those
that JSON asks for.
-/

set_option autoImplicit false

namespace ArithScript.Json

/-- One character of a string. -/
def escapeChar (c : Char) : List Char :=
  if c = '"' then ['\\', '"']
  else if c = '\\' then ['\\', '\\']
  else if c = '\x08' then ['\\', 'b']
  else if c = '\x0c' then ['\\', 'f']
  else if c = '\n' then ['\\', 'n']
  else if c = '\r' then ['\\', 'r']
  else if c = '\t' then ['\\', 't']
  else if c.toNat < 0x20 then
    ['\\', 'u', '0', '0', Nat.digitChar (c.toNat / 16), Nat.digitChar (c.toNat % 16)]
  else [c]

/-- A string between quotation marks. -/
def printString (text : String) : List Char :=
  '"' :: text.toList.flatMap escapeChar ++ ['"']

/-- Texts between brackets, with commas between them. -/
def bracketed (opening closing : Char) (items : List (List Char)) : List Char :=
  opening :: List.intercalate [','] items ++ [closing]

mutual

/-- The compact text of a value. -/
def Value.print : Value → List Char
  | .null => "null".toList
  | .boolean true => "true".toList
  | .boolean false => "false".toList
  | .integer n => integerNumeral n
  | .real x => realNumeral x
  | .string s => printString s
  | .array items => bracketed '[' ']' (printItems items)
  | .object found => bracketed '\x7b' '\x7d' (printMembers found)

/-- The texts of the elements of an array. -/
def printItems : List Value → List (List Char)
  | [] => []
  | item :: items => item.print :: printItems items

/-- The texts of the members of an object. -/
def printMembers : List (String × Value) → List (List Char)
  | [] => []
  | (name, item) :: rest => (printString name ++ ':' :: item.print) :: printMembers rest

end

/-- The compact text of a value, as a string. -/
def Value.text (v : Value) : String := String.ofList v.print

end ArithScript.Json
