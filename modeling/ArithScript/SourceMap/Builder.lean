import ArithScript.SourceMap.Mapping
import ArithScript.SourceMap.Payload
import ArithScript.SourceMap.Vlq

/-!
# Building source maps

A builder collects mappings and the texts of sources, in any order, and numbers sources and names
by their first mention. The mappings are then written in their order, each once. A line of the
generated text ends with `;`, mappings on one line are divided by `,`. Each field of a mapping is
written as its difference from the field of the mapping before it; the generated column starts again
with each line.
-/

set_option autoImplicit false

namespace ArithScript.SourceMap

/-- A source, and its text if one has been set. -/
structure Source where
  name : String
  content : Option String
  deriving DecidableEq, Repr, Inhabited

/-- A source map under construction. -/
structure Builder where
  file : String
  /-- The sources in order of first mention. -/
  sources : List Source
  /-- The names in order of first mention. -/
  names : List String
  /-- The mappings in the order in which they were added. -/
  mappings : List Mapping
  deriving DecidableEq, Repr, Inhabited

/-- A list with an element at the end, unless it is there already. -/
def mention {α : Type} [DecidableEq α] (x : α) (xs : List α) : List α :=
  if x ∈ xs then xs else xs ++ [x]

/-- Where the writing of mappings is: the fields of the mapping before. -/
structure Cursor where
  line : Nat
  column : Nat
  source : Nat
  originLine : Nat
  originColumn : Nat
  name : Nat
  deriving DecidableEq, Repr, Inhabited

namespace Cursor

/-- Before the first mapping. -/
def start : Cursor := ⟨0, 0, 0, 0, 0, 0⟩

/-- At the start of a line. -/
def toLine (line : Nat) (cursor : Cursor) : Cursor := { cursor with line := line, column := 0 }

/-- After a mapping whose source and name have the given numbers. -/
def after (m : Mapping) (source : Nat) (name : Option Nat) (cursor : Cursor) : Cursor where
  line := cursor.line
  column := m.generated.character
  source := source
  originLine := m.origin.line
  originColumn := m.origin.character
  name := name.getD cursor.name

end Cursor

/-- The difference of two numbers, written. -/
def encodeDelta (next previous : Nat) : List Char := Vlq.encode ((next : Int) - (previous : Int))

/-- A mapping, written from where the writing is. -/
def encodeSegment (m : Mapping) (source : Nat) (name : Option Nat) (cursor : Cursor) : List Char :=
  encodeDelta m.generated.character cursor.column
    ++ encodeDelta source cursor.source
    ++ encodeDelta m.origin.line cursor.originLine
    ++ encodeDelta m.origin.character cursor.originColumn
    ++ match name with
      | some index => encodeDelta index cursor.name
      | none => []

/-- Where a text is first mentioned. -/
def indexIn (names : List String) (name : String) : Nat := (names.findIdx? (· = name)).getD 0

/-- Writes mappings that are in order, after the mapping `previous`. -/
def encodeMappings (sources names : List String) :
    Option Mapping → Cursor → List Mapping → List Char
  | _, _, [] => []
  | previous, cursor, m :: ms =>
    let source := indexIn sources m.source
    let name := m.name.map (indexIn names)
    if m.generated.line ≠ cursor.line then
      let start := cursor.toLine m.generated.line
      List.replicate (m.generated.line - cursor.line) ';' ++ encodeSegment m source name start
        ++ encodeMappings sources names (some m) (start.after m source name) ms
    else if previous = some m then
      encodeMappings sources names previous cursor ms
    else
      (if previous.isSome then [','] else []) ++ encodeSegment m source name cursor
        ++ encodeMappings sources names (some m) (cursor.after m source name) ms

namespace Builder

/-- The builder that has been told nothing yet. -/
def new (file : String) : Builder := ⟨file, [], [], []⟩

/-- The names of the sources. -/
def sourceNames (b : Builder) : List String := b.sources.map Source.name

/-- The sources, with one more if it has not been mentioned. -/
def mentionSource (name : String) (sources : List Source) : List Source :=
  if sources.any (·.name = name) then sources else sources ++ [⟨name, none⟩]

/-- Sets the text of a source. -/
def setContent (source content : String) (b : Builder) : Builder :=
  { b with
    sources := (mentionSource source b.sources).map fun s =>
      if s.name = source then { s with content := some content } else s }

/-- Adds a mapping. -/
def addMapping (m : Mapping) (b : Builder) : Builder :=
  { b with
    sources := mentionSource m.source b.sources
    names :=
      match m.name with
      | some name => mention name b.names
      | none => b.names
    mappings := b.mappings ++ [m] }

/-- Adds mappings in order. -/
def addMappings (ms : List Mapping) (b : Builder) : Builder :=
  ms.foldl (fun b m => b.addMapping m) b

/-- The texts of the sources, empty where none was set; nothing at all if none was. -/
def contents (b : Builder) : List String :=
  if b.sources.any (·.content.isSome) then b.sources.map fun s => s.content.getD "" else []

/-- The mappings in order, written. -/
def mappingsText (b : Builder) : String :=
  String.ofList <|
    encodeMappings b.sourceNames b.names none .start (b.mappings.mergeSort Mapping.le)

/-- The source map of what has been told. -/
def build (b : Builder) : SourceMap where
  version := 3
  sources := b.sourceNames
  names := b.names
  mappings := b.mappingsText
  file := b.file
  sourcesContent := b.contents

end Builder

end ArithScript.SourceMap
