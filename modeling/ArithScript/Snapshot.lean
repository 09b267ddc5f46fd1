import ArithScript.Generate

/-!
# Snapshots

What a host that embeds the generator gets: one record that tells of success and of failure alike,
with the mappings flattened to numbers.
-/

set_option autoImplicit false

namespace ArithScript

/-- A mapping, as numbers. The source is left out, since a snapshot has only one. -/
structure FlatMapping where
  generatedLine : Nat
  generatedColumn : Nat
  originLine : Nat
  originColumn : Nat
  name : Option String
  deriving DecidableEq, Repr

/-- A mapping as numbers. -/
def Mapping.flatten (m : Mapping) : FlatMapping :=
  ⟨m.generated.line, m.generated.character, m.origin.line, m.origin.character, m.name⟩

/-- The outcome of generating a script, for a host. -/
structure Snapshot where
  success : Bool
  error : Option String
  code : Option String
  mappings : List FlatMapping
  deriving DecidableEq, Repr

/-- The version of the generator. -/
def version : String := "0.1.0"

/-- The options of a text, or the defaults if it holds none. -/
def optionsOrDefault (text : Option String) : Options :=
  match text.map Options.parse with
  | some (.ok options) => options
  | _ => Options.default

namespace Snapshot

/-- The snapshot of generating a script from the JSON text of a document. -/
def ofText (uri text : String) (options : Options) : Snapshot :=
  match generateText uri text options with
  | .ok generated => ⟨true, none, some generated.code, generated.mappings.map Mapping.flatten⟩
  | .error refusal => ⟨false, some refusal.message, none, []⟩

open Json

/-- A text that may be absent, as a JSON value. -/
def textValue : Option String → Value
  | some text => .string text
  | none => .null

/-- A mapping of a snapshot as a JSON value. -/
def mappingValue (m : FlatMapping) : Value :=
  .object [("generated_line", .integer m.generatedLine),
    ("generated_col", .integer m.generatedColumn), ("original_line", .integer m.originLine),
    ("original_col", .integer m.originColumn), ("name", textValue m.name)]

/-- A snapshot as a JSON value. -/
def toValue (s : Snapshot) : Value :=
  .object [("success", .boolean s.success), ("error", textValue s.error),
    ("code", textValue s.code), ("mappings", .array (s.mappings.map mappingValue))]

end Snapshot

end ArithScript
