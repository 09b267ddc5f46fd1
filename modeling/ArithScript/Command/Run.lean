import ArithScript.Command.Arguments
import ArithScript.Command.Files
import ArithScript.Generate

/-!
# Running the command

What a run does with the file it is given, and what it tells the caller. Everything but the moving
of bytes is decided here: `Invocation.produce` makes the text to deliver from the text of the file,
and `perform` is the whole command, over the few things that it asks of a system (`System`). A tree
of files is such a system (`Surroundings.system`), and `runIn` is the command on it.

What is logged depends on the time and on settings of the caller, so the surroundings of a run say
what its log is.
-/

set_option autoImplicit false

namespace ArithScript.Command

/-- The lines of the help text. -/
def helpLines : List String := [
  "Generate a script with an inline source map from an arithmetics document",
  "",
  "Usage: arith [OPTIONS] <FILE>",
  "",
  "Arguments:",
  "  <FILE>  Path to the serialized (JSON) document",
  "",
  "Options:",
  "      --uri <URI>              Identifier of the source, used to name it in the source map. " ++
    "Defaults to the document path",
  "  -o, --output <OUTPUT>        Write the script to this file instead of stdout",
  "      --no-source-map          Omit the inline source map annotation",
  "      --no-symbol-names        Do not attach symbol names to mappings",
  "      --no-end-mappings        Do not map the end of identifier and literal tokens",
  "      --max-depth <MAX_DEPTH>  Deepest expression nesting accepted [default: 256]",
  "      --mappings               Print the mapping list (0-based line:column) " ++
    "instead of the script",
  "  -v, --verbose                Log lowering details to stderr",
  "  -h, --help                   Print help"]

/-- The help text. -/
def helpText : String := String.join (helpLines.map (· ++ "\n"))

/-! ## Reports -/

/-- Why a run failed: what it was about, and the causes of the failure. -/
structure Report where
  context : String
  causes : List String
  deriving DecidableEq, Repr

/-- A text whose lines after the first are indented. -/
def indentLines (indentation text : String) : String :=
  ("\n" ++ indentation).intercalate ((text.toList.splitOn '\n').map String.ofList)

/-- Causes with their numbers. -/
def numberedCauses : Nat → List String → String
  | _, [] => ""
  | index, cause :: causes =>
    "    " ++ Json.naturalText index ++ ": " ++ indentLines "       " cause ++ "\n"
      ++ numberedCauses (index + 1) causes

/-- The text of a report. Causes are numbered if there are several. -/
def Report.text (r : Report) : String :=
  "Error: " ++ r.context ++ "\n\nCaused by:\n" ++
    match r.causes with
    | [cause] => "    " ++ indentLines "    " cause ++ "\n"
    | causes => numberedCauses 0 causes

/-- The causes of a refusal. A fault in the JSON text is a cause by itself. -/
def refusalCauses (refusal : Refusal) : List String :=
  match refusal with
  | .invalidDocument error => [refusal.message, error.message]
  | .nestingTooDeep _ => [refusal.message]

/-! ## Output -/

/-- The line that shows a mapping. -/
def mappingLine (m : Mapping) : String :=
  let place (p : Position) := Json.naturalText p.line ++ ":" ++ Json.naturalText p.character
  place m.generated ++ " → " ++ place m.origin ++
    match m.name with
    | some name => ", " ++ name
    | none => ""

namespace Invocation

/-- The identifier of the source: the path of the file, with slashes, unless one is given. -/
def sourceUri (run : Invocation) : String :=
  run.uri.getD (run.file.map fun c => if c = '\\' then '/' else c)

/-- The text that a run delivers, made from the text of its file. -/
def produce (run : Invocation) (content : Except FileError String) : Except Report String :=
  match content with
  | .error error => .error ⟨"Error reading file '" ++ run.file ++ "'", [error.message]⟩
  | .ok text =>
    match Document.parse text run.options.maxDepth with
    | .error refusal => .error ⟨"Invalid document '" ++ run.file ++ "'", refusalCauses refusal⟩
    | .ok document =>
      match document.generate run.sourceUri run.options with
      | .error failure => .error ⟨"Generation failed", [failure.message]⟩
      | .ok generated =>
        if run.mappings then .ok ("\n".intercalate (generated.mappings.map mappingLine))
        else .ok generated.code

/-- The report of an output file that cannot be written. -/
def writeReport (path : String) (error : FileError) : Report :=
  ⟨"Error writing file '" ++ path ++ "'", [error.message]⟩

end Invocation

/-! ## The command -/

/-- What the command asks of the system that it runs on. -/
structure System (m : Type → Type) where
  /-- The bytes of a file. -/
  read : String → m (Except FileError (List UInt8))
  /-- Opens a file and fills it with bytes. -/
  write : String → List UInt8 → m (Except FileError Unit)
  /-- Puts a text on standard output. -/
  print : String → m Unit
  /-- Puts a text on standard error. -/
  report : String → m Unit
  /-- Starts the log, with details or without. It goes to standard error, ahead of any report. -/
  startLog : Bool → m Unit

section

variable {m : Type → Type} [Monad m] (system : System m)

/-- Ends a run that has failed. -/
def Report.fail (r : Report) : m Nat := do
  system.report r.text
  return 1

/-- Hands over the text of a run: to the output file if there is one, or to standard output with a
newline. -/
def Invocation.deliver (run : Invocation) (text : String) : m Nat := do
  match run.output with
  | none =>
    system.print (text ++ "\n")
    return 0
  | some path =>
    match ← system.write path (utf8Bytes text) with
    | .ok () => return 0
    | .error error => (Invocation.writeReport path error).fail system

/-- Ends a run with what it has produced. -/
def Invocation.finish (run : Invocation) : Except Report String → m Nat
  | .ok text => run.deliver system text
  | .error report => report.fail system

/-- Does a run. -/
def Invocation.perform (run : Invocation) : m Nat := do
  system.startLog run.verbose
  run.finish system (run.produce ((← system.read run.file).bind decodeText))

/-- Does what some arguments ask for, and gives the exit code. -/
def perform (arguments : List String) : m Nat := do
  match parseArguments arguments with
  | .error error =>
    system.report (error.message ++ "\n")
    return 2
  | .ok .help =>
    system.print helpText
    return 0
  | .ok (.run invocation) => invocation.perform system

end

/-! ## Runs on a tree of files -/

/-- What a run does not decide: how the devices take its output, and what is logged. -/
structure Surroundings where
  medium : Medium
  /-- What a run logs, with details and without. -/
  log : Bool → String

/-- Devices that take everything, and an empty log. -/
def Surroundings.plain : Surroundings := ⟨fun _ => .takesAll, fun _ => ""⟩

/-- What has been printed, and the files. -/
structure World where
  stdout : String
  stderr : String
  files : Files
  deriving DecidableEq, Repr

/-- The system that a tree of files makes in some surroundings. -/
def Surroundings.system (surroundings : Surroundings) : System (StateM World) where
  read path := do return (← get).files.read path
  write path bytes := fun world =>
    let written := world.files.write surroundings.medium path bytes
    (written.1, { world with files := written.2 })
  print text := modify fun world => { world with stdout := world.stdout ++ text }
  report text := modify fun world => { world with stderr := world.stderr ++ text }
  startLog details :=
    modify fun world => { world with stderr := world.stderr ++ surroundings.log details }

/-- What a command leaves behind. -/
structure Outcome where
  exit : Nat
  stdout : String
  stderr : String
  files : Files
  deriving DecidableEq, Repr

/-- What is left behind when a command ends. -/
def World.outcome (exit : Nat) (world : World) : Outcome :=
  ⟨exit, world.stdout, world.stderr, world.files⟩

/-- The command on a tree of files, in some surroundings. -/
def runIn (surroundings : Surroundings) (arguments : List String) (files : Files) : Outcome :=
  let ended := (perform surroundings.system arguments).run ⟨"", "", files⟩
  ended.2.outcome ended.1

/-- The command on a tree of files. -/
def run (arguments : List String) (files : Files) : Outcome :=
  runIn .plain arguments files

end ArithScript.Command
