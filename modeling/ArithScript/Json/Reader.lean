import ArithScript.Json.Scan

/-!
# Reading JSON values

Arrays and objects are read by two loops, `elements` and `members`, which are told what to do with
each element or member and carry a state of the caller's choice. The rounds of a loop are bounded
by the text in front of it: each takes a character at least, so when the bound is used up the text
is as well, and the answer is the one for a text that ends too early.

A reader of nested values is given the number of brackets it may still open. A reader without a
limit passes the length of the text, which no nesting can exceed.
-/

set_option autoImplicit false

namespace ArithScript.Json

/-! ## Arrays -/

/-- What comes next in an array: nothing, with the text after the closing bracket, or an element,
with the text from it on. -/
inductive NextElement where
  | done (rest : List Char)
  | element (rest : List Char)

/-- Looks for the next element of an array; `first` tells whether none has been read. -/
def nextElement (first : Bool) (cs : List Char) : Except Failure NextElement :=
  match skipSpace cs with
  | [] => failPast .endInList []
  | c :: rest =>
    if c = ']' then .ok (.done rest)
    else if first then .ok (.element (c :: rest))
    else if c = ',' then
      match skipSpace rest with
      | [] => failPast .endInValue []
      | d :: after =>
        if d = ']' then failPast .trailingComma (d :: after) else .ok (.element (d :: after))
    else failPast .expectedListEnd (c :: rest)

/-- Reads the elements of an array up to and with its closing bracket. -/
def elements {σ : Type} (step : σ → List Char → Except Failure (σ × List Char)) :
    List Char → Bool → σ → List Char → Except Failure (σ × List Char)
  | [], _, _, cs => failPast .endInList cs
  | _ :: bound, first, state, cs => do
    match ← nextElement first cs with
    | .done rest => return (state, rest)
    | .element rest =>
      let (state, rest) ← step state rest
      elements step bound false state rest

/-- The step that puts what it reads in front of what has been read. -/
def push {α : Type} (read : List Char → Except Failure (α × List Char)) (items : List α)
    (cs : List Char) : Except Failure (List α × List Char) := do
  let (item, rest) ← read cs
  return (item :: items, rest)

/-- The text after the closing bracket of an array from which no more elements are wanted. -/
def endArray (cs : List Char) : Except Failure (List Char) :=
  match skipSpace cs with
  | [] => failPast .endInList []
  | c :: rest =>
    if c = ']' then .ok rest
    else if c = ',' then
      match skipSpace rest with
      | [] => failPast .trailingCharacters []
      | d :: after =>
        failPast (if d = ']' then .trailingComma else .trailingCharacters) (d :: after)
    else failPast .trailingCharacters (c :: rest)

/-- How far an array is read before a fault in it is reported: over its closing bracket, or over
the comma before the next element. -/
def closeArray (cs : List Char) : List Char :=
  match skipSpace cs with
  | [] => []
  | c :: rest => if c = ']' then rest else if c = ',' then skipSpace rest else c :: rest

/-! ## Objects -/

/-- What comes next in an object: nothing, with the text after the closing brace, or a member, with
its name and the text from the colon on. -/
inductive NextMember where
  | done (rest : List Char)
  | member (name : String) (rest : List Char)

/-- The name of a member, and the text after it. -/
def memberName (cs : List Char) : Except Failure NextMember :=
  match cs with
  | [] => failPast .endInValue []
  | c :: rest =>
    if c = '"' then (string rest).map fun (name, after) => .member name after
    else failPast .keyMustBeString (c :: rest)

/-- Looks for the next member of an object; `first` tells whether none has been read. -/
def nextMember (first : Bool) (cs : List Char) : Except Failure NextMember :=
  match skipSpace cs with
  | [] => failPast .endInObject []
  | c :: rest =>
    if c = '\x7d' then .ok (.done rest)
    else if first then memberName (c :: rest)
    else if c = ',' then
      match skipSpace rest with
      | [] => failPast .endInValue []
      | d :: after =>
        if d = '\x7d' then failPast .trailingComma (d :: after) else memberName (d :: after)
    else failPast .expectedObjectEnd (c :: rest)

/-- The text after the colon of a member. -/
def colon (cs : List Char) : Except Failure (List Char) :=
  match skipSpace cs with
  | [] => failPast .endInObject []
  | c :: rest => if c = ':' then .ok rest else failPast .expectedColon (c :: rest)

/-- Reads the members of an object up to and with its closing brace. A step takes the name of a
member and the text from the colon on. -/
def members {σ : Type} (step : σ → String → List Char → Except Failure (σ × List Char)) :
    List Char → Bool → σ → List Char → Except Failure (σ × List Char)
  | [], _, _, cs => failPast .endInObject cs
  | _ :: bound, first, state, cs => do
    match ← nextMember first cs with
    | .done rest => return (state, rest)
    | .member name rest =>
      let (state, rest) ← step state name rest
      members step bound false state rest

/-- The step that puts a member in front of those that have been read. -/
def pushMember {α : Type} (read : List Char → Except Failure (α × List Char))
    (found : List (String × α)) (name : String) (cs : List Char) :
    Except Failure (List (String × α) × List Char) := do
  let (item, rest) ← read (← colon cs)
  return ((name, item) :: found, rest)

/-- How far an object is read before a fault in it is reported: over its closing brace, if that is
next. -/
def closeObject (cs : List Char) : List Char :=
  match skipSpace cs with
  | [] => []
  | c :: rest => if c = '\x7d' then rest else c :: rest

/-! ## Values -/

/-- A number as a value. -/
def Number.toValue : Number → Value
  | .integer n => .integer n
  | .real x => .real x

/-- A value that is no array and no object, from its first character on. -/
def scalar (cs : List Char) : Reading Value :=
  match cs with
  | [] => failPast .endInValue []
  | c :: rest =>
    if c = 'n' then (word ['u', 'l', 'l'] rest).map fun (_, rest) => (.null, rest)
    else if c = 't' then (word ['r', 'u', 'e'] rest).map fun (_, rest) => (.boolean true, rest)
    else if c = 'f' then
      (word ['a', 'l', 's', 'e'] rest).map fun (_, rest) => (.boolean false, rest)
    else if c = '-' then (number true rest).map fun (n, rest) => (n.toValue, rest)
    else if (digit? c).isSome then (number false cs).map fun (n, rest) => (n.toValue, rest)
    else if c = '"' then (string rest).map fun (s, rest) => (.string s, rest)
    else failPast .expectedValue cs

/-- A value with at most `depth` nested arrays and objects. -/
def value : Nat → List Char → Except Failure (Value × List Char)
  | depth, cs =>
    match skipSpace cs with
    | [] => failPast .endInValue []
    | c :: rest =>
      if c = '[' then
        match depth with
        | 0 => failPast .recursionLimit (c :: rest)
        | depth + 1 => do
          let (items, rest) ← elements (push (value depth)) rest true [] rest
          return (.array items.reverse, rest)
      else if c = '\x7b' then
        match depth with
        | 0 => failPast .recursionLimit (c :: rest)
        | depth + 1 => do
          let (found, rest) ← members (pushMember (value depth)) rest true [] rest
          return (.object found.reverse, rest)
      else scalar (c :: rest)

/-- Checks that nothing but blanks is left. -/
def endOfText (cs : List Char) : Except Failure Unit :=
  match skipSpace cs with
  | [] => .ok ()
  | rest => failPast .trailingCharacters rest

/-- Reads a whole text with a reader, and gives a failure its place. -/
def readText {α : Type} (read : List Char → Except Failure (α × List Char)) (text : List Char) :
    Except Error α :=
  let outcome : Except Failure α := do
    let (result, rest) ← read text
    endOfText rest
    return result
  outcome.mapError (·.locate text)

/-- The value that a whole text holds. -/
def parse (text : String) : Except Error Value :=
  readText (value text.toList.length) text.toList

end ArithScript.Json
