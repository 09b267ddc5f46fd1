import ArithScript.Json.Reader
import ArithScript.Json.Skip

/-!
# Decoders

A decoder makes values of one type from JSON, in two ways: by reading text directly (`read`), where
a fault is reported with its place, and by converting a value that is already in memory
(`convert`), where there is no place to report. Both accept the same values, with one exception
that `Variants` explains.

Records are described by a `Shape`: an ordered list of fields, put together applicatively, so that a
shape reads like the constructor of its type applied to its fields. A record is written as an
object, whose members may stand in any order and may include unknown ones, or as an array with the
fields in order. The state of a reader in the middle of a record is one slot per field.
-/

set_option autoImplicit false

namespace ArithScript.Json

/-- How to make values of a type from JSON text and from JSON values. Reading takes the number of
brackets that it may still open. -/
structure Decoder (α : Type) where
  read : Nat → List Char → Except Failure (α × List Char)
  convert : Value → Except Cause α

/-- Fails for the value that stands next, which is of another kind than expected. A scalar is read
before the failure, a bracket is not. -/
def mismatch {α : Type} (expected : Expected) (cs : List Char) : Except Failure α :=
  match cs with
  | '[' :: _ => failHere (.invalidType .sequence expected) cs
  | '\x7b' :: _ => failHere (.invalidType .map expected) cs
  | _ => do
    let (found, rest) ← scalar cs
    failHere (.invalidType found.found expected) rest

/-- Reads from the next character on, which has to be there. -/
def atNext {α : Type} (cs : List Char) (read : Char → List Char → Except Failure α) :
    Except Failure α :=
  match skipSpace cs with
  | [] => failPast .endInValue []
  | c :: rest => read c rest

namespace Decoder

/-! ## Scalars -/

/-- Texts. -/
def string : Decoder String where
  read _ cs := atNext cs fun c rest =>
    if c = '"' then Json.string rest else mismatch .string (c :: rest)
  convert
    | .string s => .ok s
    | v => .error (.invalidType v.found .string)

/-- Truth values. -/
def boolean : Decoder Bool where
  read _ cs := atNext cs fun c rest =>
    if c = 't' then (word ['r', 'u', 'e'] rest).map fun (_, rest) => (true, rest)
    else if c = 'f' then (word ['a', 'l', 's', 'e'] rest).map fun (_, rest) => (false, rest)
    else mismatch .boolean (c :: rest)
  convert
    | .boolean b => .ok b
    | v => .error (.invalidType v.found .boolean)

/-- A number as a natural number of the given width. -/
def checkNatural (width : Width) : Number → Except Cause Nat
  | .integer n =>
    if 0 ≤ n ∧ n ≤ width.max then .ok n.toNat
    else .error (.invalidValue (.integer n) (.natural width))
  | .real x => .error (.invalidType (.real x) (.natural width))

/-- Natural numbers of the given width. -/
def natural (width : Width) : Decoder Nat where
  read _ cs := atNext cs fun c rest =>
    if c = '-' || (digit? c).isSome then do
      let (n, rest) ← if c = '-' then number true rest else number false (c :: rest)
      match checkNatural width n with
      | .ok n => .ok (n, rest)
      | .error cause => failHere cause rest
    else mismatch (.natural width) (c :: rest)
  convert
    | .integer n => checkNatural width (.integer n)
    | .real x => checkNatural width (.real x)
    | v => .error (.invalidType v.found (.natural width))

/-- A decoder that reads a value into memory and converts it there. -/
def buffered {α : Type} (convert : Value → Except Cause α) : Decoder α where
  read depth cs := do
    let (v, rest) ← value depth cs
    match convert v with
    | .ok x => .ok (x, rest)
    | .error cause => failHere cause rest
  convert := convert

/-- Doubles, from any number. -/
def real : Decoder Double :=
  buffered fun
    | .integer n => .ok (Double.ofInt n)
    | .real x => .ok x
    | v => .error (.invalidType v.found .real)

/-! ## Options and lists -/

/-- A value or `null`. -/
def nullable {α : Type} (item : Decoder α) : Decoder (Option α) where
  read depth cs :=
    match skipSpace cs with
    | 'n' :: rest => (word ['u', 'l', 'l'] rest).map fun (_, rest) => (none, rest)
    | rest => (item.read depth rest).map fun (x, rest) => (some x, rest)
  convert
    | .null => .ok none
    | v => (item.convert v).map some

/-- Arrays of any length. -/
def list {α : Type} (item : Decoder α) : Decoder (List α) where
  read depth cs := atNext cs fun c rest =>
    if c = '[' then
      match depth with
      | 0 => failPast .recursionLimit (c :: rest)
      | depth + 1 => do
        let (items, rest) ← elements (push (item.read depth)) rest true [] rest
        return (items.reverse, rest)
    else mismatch .sequence (c :: rest)
  convert
    | .array vs => vs.mapM item.convert
    | v => .error (.invalidType v.found .sequence)

end Decoder

/-! ## Records -/

/-- A field of a record that is being read; `σ` is the state of the whole record. -/
structure Field (σ : Type) where
  name : String
  /-- Whether the field has been read. -/
  filled : σ → Bool
  read : Nat → σ → List Char → Except Failure (σ × List Char)
  convert : Value → σ → Except Cause σ

/-- A field of a part of the state. -/
def Field.within {σ τ : Type} (get : τ → σ) (set : τ → σ → τ) (field : Field σ) : Field τ where
  name := field.name
  filled state := field.filled (get state)
  read depth state cs :=
    (field.read depth (get state) cs).map fun (part, rest) => (set state part, rest)
  convert v state := (field.convert v (get state)).map (set state)

/-- A record form: the fields in order, and how a record is made of the slots. What is missing is
reported by the name of the first field that should be there. -/
structure Shape (α : Type) where
  Slots : Type
  blank : Slots
  fields : List (Field Slots)
  build : Slots → Except String α

namespace Shape

/-- The form with a single field, and what an empty slot means. -/
def single {α : Type} (name : String) (item : Decoder α) (absent : Except String α) : Shape α where
  Slots := Option α
  blank := none
  fields := [{
    name := name
    filled := Option.isSome
    read := fun depth _ cs => (item.read depth cs).map fun (x, rest) => (some x, rest)
    convert := fun v _ => (item.convert v).map some }]
  build
    | some x => .ok x
    | none => absent

/-- A field that has to be there. -/
def required {α : Type} (name : String) (item : Decoder α) : Shape α :=
  single name item (.error name)

/-- A field that may be missing. -/
def optional {α : Type} (name : String) (item : Decoder α) (fallback : α) : Shape α :=
  single name item (.ok fallback)

/-- A field that may be missing or `null`. -/
def nullable {α : Type} (name : String) (item : Decoder α) : Shape (Option α) :=
  optional name item.nullable none

/-- The form whose records are made from those of another form. -/
def map {α β : Type} (f : α → β) (shape : Shape α) : Shape β where
  Slots := shape.Slots
  blank := shape.blank
  fields := shape.fields
  build slots := (shape.build slots).map f

/-- The form with the fields of one form before those of another. -/
def seq {α β : Type} (shape : Shape (α → β)) (next : Shape α) : Shape β where
  Slots := shape.Slots × next.Slots
  blank := (shape.blank, next.blank)
  fields :=
    shape.fields.map (Field.within Prod.fst fun slots part => (part, slots.2))
      ++ next.fields.map (Field.within Prod.snd fun slots part => (slots.1, part))
  build slots := do
    let f ← shape.build slots.1
    let x ← next.build slots.2
    return f x

instance : Functor Shape where
  map := Shape.map

instance : Seq Shape where
  seq shape next := shape.seq (next ())

/-- The place of a name among the fields. -/
def indexOf {α : Type} (shape : Shape α) (name : String) : Nat :=
  shape.fields.findIdx (·.name = name)

/-! ### Reading records -/

/-- Reads fields in order from the elements of an array, as many as there are. -/
def readElements {σ : Type} (depth : Nat) :
    List (Field σ) → Bool → σ → List Char → Except Failure (σ × List Char)
  | [], _, state, cs => do return (state, ← endArray cs)
  | field :: fields, first, state, cs => do
    match ← nextElement first cs with
    | .done rest => return (state, rest)
    | .element rest =>
      let (state, rest) ← field.read depth state rest
      readElements depth fields false state rest

/-- Reads one member of an object: a field, or a member to pass over. -/
def readMember {σ : Type} (depth : Nat) (fields : List (Field σ)) (state : σ) (name : String)
    (cs : List Char) : Except Failure (σ × List Char) :=
  match fields.find? (·.name = name) with
  | some field =>
    if field.filled state then failHere (.duplicateField name) (closeObject cs)
    else do field.read depth state (← colon cs)
  | none => do return (state, ← skip (← colon cs))

/-- Reads a record. `name` is what messages call it. -/
def read {α : Type} (name : String) (shape : Shape α) (depth : Nat) (cs : List Char) :
    Except Failure (α × List Char) :=
  atNext cs fun c rest =>
    if c = '[' then
      match depth with
      | 0 => failPast .recursionLimit (c :: rest)
      | depth + 1 => do
        let (slots, rest) ← readElements depth shape.fields true shape.blank rest
        match shape.build slots with
        | .ok x => return (x, rest)
        | .error field =>
          failHere (.invalidLength (shape.indexOf field) (.fields name shape.fields.length)) rest
    else if c = '\x7b' then
      match depth with
      | 0 => failPast .recursionLimit (c :: rest)
      | depth + 1 => do
        let (slots, rest) ← members (readMember depth shape.fields) rest true shape.blank rest
        match shape.build slots with
        | .ok x => return (x, rest)
        | .error field => failHere (.missingField field) rest
    else mismatch (.record name) (c :: rest)

/-! ### Converting records -/

/-- Converts values to fields in order, as many as there are. -/
def convertElements {σ : Type} : List (Field σ) → List Value → σ → Except Cause σ
  | field :: fields, v :: vs, state => do convertElements fields vs (← field.convert v state)
  | _, _, state => .ok state

/-- Converts members to fields, passing over unknown ones. -/
def convertMembers {σ : Type} (fields : List (Field σ)) :
    List (String × Value) → σ → Except Cause σ
  | [], state => .ok state
  | (name, v) :: rest, state =>
    match fields.find? (·.name = name) with
    | some field =>
      if field.filled state then .error (.duplicateField name)
      else do convertMembers fields rest (← field.convert v state)
    | none => convertMembers fields rest state

/-- Converts a record. `name` is what messages call it. -/
def convert {α : Type} (name : String) (shape : Shape α) : Value → Except Cause α
  | .array vs => do
    let count := shape.fields.length
    match shape.build (← convertElements shape.fields vs shape.blank) with
    | .error field => throw (.invalidLength (shape.indexOf field) (.fields name count))
    | .ok x =>
      if vs.length ≤ count then return x
      else throw (.invalidLength vs.length (.elements count))
  | .object ms => do
    match shape.build (← convertMembers shape.fields ms shape.blank) with
    | .error field => throw (.missingField field)
    | .ok x => return x
  | v => .error (.invalidType v.found (.record name))

/-- The decoder of a record. -/
def decoder {α : Type} (name : String) (shape : Shape α) : Decoder α where
  read := shape.read name
  convert := shape.convert name

end Shape

/-! ## Variants -/

/-- The member that holds the tag of a variant. -/
def tagName : String := "$type"

/-- A type with tagged variants: each has a tag, and a conversion for what is left of a value
without it. A variant is written as an object with a member for the tag, anywhere in it, or as an
array with the tag in front.

Reading takes the tag as it comes and the rest into memory, because the form of the rest depends on
a tag that may come last. A tag that is read from text has to be a text; a tag in memory may also
be the number of the variant. -/
structure Variants (α : Type) where
  name : String
  cases : List (String × (Value → Except Cause α))

namespace Variants

variable {α : Type}

/-- The conversion for a tag. -/
def ofTag (variants : Variants α) (tag : String) : Except Cause (Value → Except Cause α) :=
  match variants.cases.find? (·.1 = tag) with
  | some (_, convert) => .ok convert
  | none => .error (.unknownTag tag (variants.cases.map Prod.fst))

/-! ### Reading variants -/

/-- Reads a tag. -/
def readTag (variants : Variants α) (cs : List Char) :
    Except Failure ((Value → Except Cause α) × List Char) :=
  atNext cs fun c rest =>
    if c = '"' then do
      let (tag, rest) ← Json.string rest
      match variants.ofTag tag with
      | .ok convert => return (convert, rest)
      | .error cause => failHere cause rest
    else mismatch .tag (c :: rest)

/-- The tag and the members read so far, these in reverse. -/
abbrev Gathered (α : Type) := Option (Value → Except Cause α) × List (String × Value)

/-- Reads one member of a variant: the tag, or a member to keep. -/
def gatherMember (variants : Variants α) (depth : Nat) (state : Gathered α) (name : String)
    (cs : List Char) : Except Failure (Gathered α × List Char) :=
  if name = tagName then
    if state.1.isSome then failHere (.duplicateField tagName) (closeObject cs)
    else do
      let (convert, rest) ← variants.readTag (← colon cs)
      return ((some convert, state.2), rest)
  else do
    let (v, rest) ← value depth (← colon cs)
    return ((state.1, (name, v) :: state.2), rest)

/-- Reads a variant into memory: its conversion, and what there is to convert. -/
def gather (variants : Variants α) (depth : Nat) (cs : List Char) :
    Except Failure (((Value → Except Cause α) × Value) × List Char) :=
  atNext cs fun c rest =>
    if c = '[' then
      match depth with
      | 0 => failPast .recursionLimit (c :: rest)
      | depth + 1 => do
        match ← nextElement true rest with
        | .done rest => failHere (.missingField tagName) rest
        | .element rest =>
          let (convert, rest) ← variants.readTag rest
          let (items, rest) ← elements (push (value depth)) rest false [] rest
          return ((convert, .array items.reverse), rest)
    else if c = '\x7b' then
      match depth with
      | 0 => failPast .recursionLimit (c :: rest)
      | depth + 1 => do
        let ((tag, found), rest) ← members (variants.gatherMember depth) rest true (none, []) rest
        match tag with
        | some convert => return ((convert, .object found.reverse), rest)
        | none => failHere (.missingField tagName) rest
    else mismatch (.tagged variants.name) (c :: rest)

/-- Reads a variant that is an element of an array. A fault of the conversion is reported after the
array has been read on. -/
def read (variants : Variants α) (depth : Nat) (cs : List Char) :
    Except Failure (α × List Char) := do
  let ((convert, content), rest) ← variants.gather depth cs
  match convert content with
  | .ok x => return (x, rest)
  | .error cause => failHere cause (closeArray rest)

/-! ### Converting variants -/

/-- The conversion for a tag in memory. -/
def convertTag (variants : Variants α) : Value → Except Cause (Value → Except Cause α)
  | .string tag => variants.ofTag tag
  | .integer n =>
    if n < 0 then .error (.invalidType (.integer n) .tag)
    else match variants.cases[n.toNat]? with
      | some (_, convert) => .ok convert
      | none => .error (.invalidValue (.integer n) (.tagIndex variants.cases.length))
  | v => .error (.invalidType v.found .tag)

/-- Takes the tag out of the members of an object. -/
def splitTag (variants : Variants α) :
    List (String × Value) → Gathered α → Except Cause (Gathered α)
  | [], state => .ok state
  | (name, v) :: rest, state =>
    if name = tagName then
      if state.1.isSome then .error (.duplicateField tagName)
      else do splitTag variants rest (some (← variants.convertTag v), state.2)
    else splitTag variants rest (state.1, (name, v) :: state.2)

/-- Converts a variant. -/
def convert (variants : Variants α) : Value → Except Cause α
  | .array [] => .error (.missingField tagName)
  | .array (tag :: items) => do (← variants.convertTag tag) (.array items)
  | .object ms => do
    match ← variants.splitTag ms (none, []) with
    | (some convert, found) => convert (.object found.reverse)
    | (none, _) => throw (.missingField tagName)
  | v => .error (.invalidType v.found (.tagged variants.name))

/-- The decoder of a type with tagged variants. -/
def decoder (variants : Variants α) : Decoder α where
  read := variants.read
  convert := variants.convert

end Variants

/-! ## Tags by themselves -/

/-- The value that a tag stands for. -/
def tagValue {α : Type} (tags : List (String × α)) (tag : String) : Except Cause α :=
  match tags.find? (·.1 = tag) with
  | some (_, x) => .ok x
  | none => .error (.unknownTag tag (tags.map Prod.fst))

/-- Converts a tag that carries nothing: a text, or an object whose only member is named by the tag
and holds nothing. -/
def convertTagOnly {α : Type} (tags : List (String × α)) : Value → Except Cause α
  | .string tag => tagValue tags tag
  | .object [(tag, v)] => do
    let x ← tagValue tags tag
    match v with
    | .null => return x
    | .object [] => return x
    | v => throw (.invalidType v.found .unit)
  | .object _ => .error (.invalidValue .map .singleMember)
  | v => .error (.invalidType v.found .stringOrMap)

end ArithScript.Json
