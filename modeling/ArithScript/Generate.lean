import ArithScript.Document.Form
import ArithScript.Lowering.Module
import ArithScript.SourceMap.Builder
import ArithScript.SourceMap.Synthesis

/-!
# Generating scripts

From a document to a script with its source map. The module is lowered, the trace gives the
mappings, the mappings give the source map, and the map is put on the last line of the script unless
the caller does without. The mappings are the same either way.
-/

set_option autoImplicit false

namespace ArithScript

/-- A generated script. -/
structure Generated where
  /-- The script, with its annotation if one was asked for. -/
  code : String
  /-- The mappings, in the order of the trace. -/
  mappings : List Mapping
  /-- The source map, if one was asked for. -/
  sourceMap : Option SourceMap
  deriving DecidableEq, Repr

/-- What stands for a source text that is not known. -/
def missingSourceText : String := "<Source text not available>"

/-- The name of the source that an identifier names: what follows its last slash. -/
def filenameOf (uri : String) : String :=
  match (uri.toList.reverse.takeWhile (· ≠ '/')).reverse with
  | [] => "module"
  | segment => String.ofList segment

/-- The source map of some mappings of one source. -/
def sourceMapOf (filename : String) (sourceText : Option String) (mappings : List Mapping) :
    SourceMap :=
  SourceMap.Builder.new (filename ++ ".js")
    |>.setContent filename (sourceText.getD missingSourceText)
    |>.addMappings mappings
    |>.build

/-- The script of a document. -/
def Document.generate (d : Document) (uri : String) (options : Options) :
    Except NestingTooDeep Generated := do
  let (script, trace) ← d.module.lower options.maxDepth
  let filename := filenameOf uri
  let mappings := synthesize
    { filename := filename, source := (d.sourceText.getD "").toList, generated := script.toList }
    options trace
  let sourceMap := sourceMapOf filename d.sourceText mappings
  if options.sourceMap then
    return ⟨script ++ "\n\n" ++ annotationText sourceMap.text, mappings, some sourceMap⟩
  else
    return ⟨script, mappings, none⟩

/-- The script of the document that a JSON text holds. -/
def generateText (uri text : String) (options : Options) : Except Refusal Generated := do
  let document ← Document.parse text options.maxDepth
  (document.generate uri options).mapError .nestingTooDeep

end ArithScript
