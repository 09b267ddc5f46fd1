import ArithScript.Decimal.Numeral
import ArithScript.Json.Value
import ArithScript.Text.Characters

/-!
# Why a JSON text is refused

A refusal has a cause and a place. Causes come in two families: the text is no JSON, or it is JSON
but not of the form that the reader asks for. The wording of every cause is in `Cause.message`, and
nowhere else.
-/

set_option autoImplicit false

namespace ArithScript.Json

/-- What a reader came upon, as far as a message tells. -/
inductive Found where
  | null
  | boolean (value : Bool)
  | integer (value : Int)
  | real (value : Double)
  | string (value : String)
  | sequence
  | map
  deriving DecidableEq, Repr

/-- What a message tells of a value. -/
def Value.found : Value → Found
  | .null => .null
  | .boolean b => .boolean b
  | .integer n => .integer n
  | .real x => .real x
  | .string s => .string s
  | .array _ => .sequence
  | .object _ => .map

/-- The bounds a reader may put on a natural number. -/
inductive Width where
  /-- One byte. -/
  | byte
  /-- Four bytes: a line or a character. -/
  | coordinate
  /-- Eight bytes: an offset or a limit. -/
  | offset
  deriving DecidableEq, Repr

/-- The greatest number of a width. -/
def Width.max : Width → Nat
  | .byte => Nat.pow 2 8 - 1
  | .coordinate => Nat.pow 2 32 - 1
  | .offset => Nat.pow 2 64 - 1

/-- What a reader asked for. -/
inductive Expected where
  /-- A record of the given name. -/
  | record (name : String)
  /-- A record of the given name with that many fields. -/
  | fields (name : String) (count : Nat)
  /-- That many elements. -/
  | elements (count : Nat)
  /-- A value that carries the tag of one of the variants of a type. -/
  | tagged (name : String)
  /-- The tag of a variant. -/
  | tag
  /-- The number of a variant, below the given count. -/
  | tagIndex (count : Nat)
  | string
  | sequence
  | boolean
  | natural (width : Width)
  | real
  /-- A tag by itself or as the name of the only member. -/
  | stringOrMap
  /-- An object with one member. -/
  | singleMember
  /-- The value of a member that only names a tag. -/
  | unit
  deriving DecidableEq, Repr

/-- Why a text is refused. -/
inductive Cause where
  | endInValue
  | endInList
  | endInObject
  | endInString
  | expectedColon
  | expectedListEnd
  | expectedObjectEnd
  | expectedIdent
  | expectedValue
  | invalidEscape
  | invalidNumber
  | numberOutOfRange
  | loneSurrogate
  | endOfHexEscape
  | controlCharacter
  | keyMustBeString
  | trailingComma
  | trailingCharacters
  | recursionLimit
  | invalidType (found : Found) (expected : Expected)
  | invalidValue (found : Found) (expected : Expected)
  | invalidLength (length : Nat) (expected : Expected)
  | unknownTag (tag : String) (known : List String)
  | missingField (name : String)
  | duplicateField (name : String)
  deriving DecidableEq, Repr

/-- A natural number as text. -/
def naturalText (n : Nat) : String := String.ofList (Nat.toDigits 10 n)

/-- The wording of what a reader came upon. -/
def Found.message : Found → String
  | .null => "null"
  | .boolean true => "boolean `true`"
  | .boolean false => "boolean `false`"
  | .integer n => "integer `" ++ String.ofList (integerNumeral n) ++ "`"
  | .real x => "floating point `" ++ String.ofList (realNumeral x) ++ "`"
  | .string s => "string " ++ Text.quoted s
  | .sequence => "sequence"
  | .map => "map"

/-- The wording of a width. -/
def Width.message : Width → String
  | .byte => "u8"
  | .coordinate => "u32"
  | .offset => "usize"

/-- The wording of a number of elements. -/
def elementCount (count : Nat) : String :=
  if count = 1 then "1 element" else naturalText count ++ " elements"

/-- The wording of what a reader asked for. -/
def Expected.message : Expected → String
  | .record name => "struct " ++ name
  | .fields name count => "struct " ++ name ++ " with " ++ elementCount count
  | .elements count => elementCount count ++ " in sequence"
  | .tagged name => "internally tagged enum " ++ name
  | .tag => "variant identifier"
  | .tagIndex count => "variant index 0 <= i < " ++ naturalText count
  | .string => "a string"
  | .sequence => "a sequence"
  | .boolean => "a boolean"
  | .natural width => width.message
  | .real => "f64"
  | .stringOrMap => "string or map"
  | .singleMember => "map with a single key"
  | .unit => "unit"

/-- The wording of a choice among tags. -/
def choiceText (known : List String) : String :=
  let quotedTags := known.map fun tag => "`" ++ tag ++ "`"
  match quotedTags with
  | [one, two] => one ++ " or " ++ two
  | [one] => one
  | many => "one of " ++ ", ".intercalate many

/-- The wording of a cause. -/
def Cause.message : Cause → String
  | .endInValue => "EOF while parsing a value"
  | .endInList => "EOF while parsing a list"
  | .endInObject => "EOF while parsing an object"
  | .endInString => "EOF while parsing a string"
  | .expectedColon => "expected `:`"
  | .expectedListEnd => "expected `,` or `]`"
  | .expectedObjectEnd => "expected `,` or `\x7d`"
  | .expectedIdent => "expected ident"
  | .expectedValue => "expected value"
  | .invalidEscape => "invalid escape"
  | .invalidNumber => "invalid number"
  | .numberOutOfRange => "number out of range"
  | .loneSurrogate => "lone leading surrogate in hex escape"
  | .endOfHexEscape => "unexpected end of hex escape"
  | .controlCharacter => "control character (\\u0000-\\u001F) found while parsing a string"
  | .keyMustBeString => "key must be a string"
  | .trailingComma => "trailing comma"
  | .trailingCharacters => "trailing characters"
  | .recursionLimit => "recursion limit exceeded"
  | .invalidType found expected =>
    "invalid type: " ++ found.message ++ ", expected " ++ expected.message
  | .invalidValue found expected =>
    "invalid value: " ++ found.message ++ ", expected " ++ expected.message
  | .invalidLength length expected =>
    "invalid length " ++ naturalText length ++ ", expected " ++ expected.message
  | .unknownTag tag known => "unknown variant `" ++ tag ++ "`, expected " ++ choiceText known
  | .missingField name => "missing field `" ++ name ++ "`"
  | .duplicateField name => "duplicate field `" ++ name ++ "`"

/-- A refusal: its cause, and the place where reading stopped. -/
structure Error where
  cause : Cause
  /-- The line, from one. -/
  line : Nat
  /-- The bytes read on that line. -/
  column : Nat
  deriving DecidableEq, Repr

/-- The wording of a refusal. -/
def Error.message (e : Error) : String :=
  e.cause.message ++ " at line " ++ naturalText e.line ++ " column " ++ naturalText e.column

end ArithScript.Json
