import ArithScript.Json.Decoder
import ArithScript.Json.Printer
import ArithScript.SourceMap.Base64

/-!
# Source maps

A source map of revision 3 as it is exchanged: the names of the sources and of the symbols, the
mappings as one text, the name of the generated file, and the texts of the sources where they are
known. It is read from JSON text and written to it.

A script carries its source map in a comment on its last line: a data URL that holds the JSON text
of the map in base 64.
-/

set_option autoImplicit false

namespace ArithScript

/-- A source map. -/
structure SourceMap where
  version : Nat
  sources : List String
  names : List String
  /-- The mappings, as base-64 quantities. -/
  mappings : String
  /-- The name of the generated file. -/
  file : String
  /-- The texts of the sources, or nothing if none is known. -/
  sourcesContent : List String
  deriving DecidableEq, Repr, Inhabited

namespace SourceMap

open Json

/-- The JSON form of source maps. -/
def shape : Shape SourceMap :=
  SourceMap.mk <$> .required "version" (.natural .byte)
    <*> .required "sources" (.list .string)
    <*> .required "names" (.list .string)
    <*> .required "mappings" .string
    <*> .required "file" .string
    <*> .optional "sourcesContent" (.list .string) []

/-- The source map that a JSON text holds. -/
def parse (text : String) : Except Json.Error SourceMap :=
  readText (shape.read "RawSourceMap" text.toList.length) text.toList

/-- A list of texts as a JSON value. -/
def textsValue (texts : List String) : Value := .array (texts.map Value.string)

/-- A source map as a JSON value. The texts of the sources are left out if there are none. -/
def toValue (m : SourceMap) : Value :=
  .object <| [("version", .integer m.version), ("sources", textsValue m.sources),
    ("names", textsValue m.names), ("mappings", .string m.mappings), ("file", .string m.file)] ++
    if m.sourcesContent.isEmpty then [] else [("sourcesContent", textsValue m.sourcesContent)]

/-- The JSON text of a source map. -/
def text (m : SourceMap) : String := m.toValue.text

end SourceMap

/-! ## Annotations -/

/-- What an annotation starts with. -/
def annotationStart : String :=
  "//# sourceMappingURL=data:application/json;charset=utf-8;base64,"

/-- The bytes of a text. -/
def utf8Bytes (text : String) : List UInt8 := text.toList.flatMap String.utf8EncodeChar

/-- The annotation that holds a JSON text. -/
def annotationText (json : String) : String :=
  annotationStart ++ String.ofList (Base64.encode (utf8Bytes json))

end ArithScript
