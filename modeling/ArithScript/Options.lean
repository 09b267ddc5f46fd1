import ArithScript.Json.Decoder
import ArithScript.Json.Printer

/-!
# Options

What a caller may choose about a generated script. Options are read from JSON text and written to
it; a member that is missing keeps its default.
-/

set_option autoImplicit false

namespace ArithScript

/-- The choices of a caller. -/
structure Options where
  /-- Whether to put the source map into the script. -/
  sourceMap : Bool
  /-- Whether mappings carry the names of single-letter symbols. -/
  symbolNames : Bool
  /-- Whether the ends of tokens are mapped as well as their starts. -/
  endMappings : Bool
  /-- The greatest height of an expression. -/
  maxDepth : Nat
  deriving DecidableEq, Repr

namespace Options

/-- The greatest height of an expression, unless a caller says otherwise. -/
def defaultMaxDepth : Nat := 256

/-- The options of a caller who chooses nothing. -/
protected def default : Options := ⟨true, true, true, defaultMaxDepth⟩

instance : Inhabited Options := ⟨Options.default⟩

open Json in
/-- The JSON form of options. -/
def shape : Shape Options :=
  Options.mk <$> .optional "sourceMap" .boolean Options.default.sourceMap
    <*> .optional "symbolNames" .boolean Options.default.symbolNames
    <*> .optional "endMappings" .boolean Options.default.endMappings
    <*> .optional "maxDepth" (.natural .offset) Options.default.maxDepth

/-- The options that a JSON text holds. -/
def parse (text : String) : Except Json.Error Options :=
  Json.readText (shape.read "GenerateOptions" text.toList.length) text.toList

/-- Options as a JSON value. -/
def toValue (options : Options) : Json.Value :=
  .object [("sourceMap", .boolean options.sourceMap), ("symbolNames", .boolean options.symbolNames),
    ("endMappings", .boolean options.endMappings), ("maxDepth", .integer options.maxDepth)]

end Options

end ArithScript
