import ArithScript.Options
import ArithScript.Text.Terminal

/-!
# Arguments of the command

The command takes a document file and some options. An option is written `--name`, with its value
after `=` or in the next argument; some have a letter too, and letters may share one argument. What
follows `--` is never an option.

A value in an argument of its own is kept pending, and is looked at when the next option or file is
taken or when the arguments end. So an argument that means nothing is reported first, even if a bad
value stands before it.
-/

set_option autoImplicit false

namespace ArithScript.Command

/-- What the command may be told. -/
inductive Argument where
  | file
  | uri
  | output
  | noSourceMap
  | noSymbolNames
  | noEndMappings
  | maxDepth
  | mappings
  | verbose
  | help
  deriving DecidableEq, Repr

namespace Argument

/-- How messages call an argument. -/
def display : Argument → String
  | .file => "<FILE>"
  | .uri => "--uri <URI>"
  | .output => "--output <OUTPUT>"
  | .noSourceMap => "--no-source-map"
  | .noSymbolNames => "--no-symbol-names"
  | .noEndMappings => "--no-end-mappings"
  | .maxDepth => "--max-depth <MAX_DEPTH>"
  | .mappings => "--mappings"
  | .verbose => "--verbose"
  | .help => "--help"

/-- Whether an argument has a value. -/
def takesValue : Argument → Bool
  | .file | .uri | .output | .maxDepth => true
  | _ => false

/-- The names of the options. -/
def names : List (String × Argument) :=
  [("uri", .uri), ("output", .output), ("no-source-map", .noSourceMap),
   ("no-symbol-names", .noSymbolNames), ("no-end-mappings", .noEndMappings),
   ("max-depth", .maxDepth), ("mappings", .mappings), ("verbose", .verbose), ("help", .help)]

/-- The option with a name. -/
def ofName? (name : String) : Option Argument :=
  (names.find? (·.1 = name)).map Prod.snd

/-- The option with a letter. -/
def ofLetter? (c : Char) : Option Argument :=
  if c = 'o' then some .output
  else if c = 'v' then some .verbose
  else if c = 'h' then some .help
  else none

end Argument

/-- Why a text is no limit. -/
inductive LimitError where
  | empty
  | invalidDigit
  | tooLarge
  deriving DecidableEq, Repr

/-- The wording of a bad limit. -/
def LimitError.message : LimitError → String
  | .empty => "cannot parse integer from empty string"
  | .invalidDigit => "invalid digit found in string"
  | .tooLarge => "number too large to fit in target type"

/-- What is wrong with the arguments. -/
inductive UsageError where
  | unexpectedArgument (argument : String)
  | valueRequired (argument : Argument)
  | repeated (argument : Argument)
  | unexpectedValue (value : String) (argument : Argument)
  | invalidLimit (value : String) (error : LimitError)
  | missingFile
  deriving DecidableEq, Repr

/-- The wording of a fault in the arguments. Of what was given, only what shows on a terminal is
told. -/
def UsageError.message : UsageError → String
  | .unexpectedArgument argument =>
    "error: unexpected argument '" ++ Text.visible argument ++ "' found"
  | .valueRequired argument =>
    "error: a value is required for '" ++ argument.display ++ "' but none was supplied"
  | .repeated argument =>
    "error: the argument '" ++ argument.display ++ "' cannot be used multiple times"
  | .unexpectedValue value argument =>
    "error: unexpected value '" ++ Text.visible value ++ "' for '" ++ argument.display
      ++ "' found; no more were expected"
  | .invalidLimit value error =>
    "error: invalid value '" ++ Text.visible value ++ "' for '" ++ Argument.maxDepth.display
      ++ "': " ++ error.message
  | .missingFile => "error: the following required arguments were not provided:"

/-- A run that the arguments ask for. -/
structure Invocation where
  file : String
  uri : Option String
  output : Option String
  options : Options
  /-- Whether to show the mappings in place of the script. -/
  mappings : Bool
  verbose : Bool
  deriving DecidableEq, Repr

/-- What the arguments ask for. -/
inductive Request where
  | help
  | run (invocation : Invocation)
  deriving DecidableEq, Repr

/-- Why taking arguments stops before their end. -/
inductive Stop where
  | help
  | usage (error : UsageError)
  deriving DecidableEq, Repr

/-! ## Values -/

/-- The digits of a limit, after `value`. -/
def limitDigits (value : Nat) : List Char → Except LimitError Nat
  | [] => .ok value
  | c :: cs =>
    if c.isDigit then
      let next := value * 10 + (c.toNat - 48)
      if next ≤ Json.Width.offset.max then limitDigits next cs else .error .tooLarge
    else .error .invalidDigit

/-- A limit: digits, with a plus sign in front if one likes. -/
def parseLimit (text : String) : Except LimitError Nat :=
  match text.toList with
  | [] => .error .empty
  | ['+'] => .error .invalidDigit
  | '+' :: cs => limitDigits 0 cs
  | cs => limitDigits 0 cs

/-- What has been taken so far. -/
structure Taken where
  file : Option String
  uri : Option String
  output : Option String
  maxDepth : Option Nat
  /-- The options without a value. -/
  flags : List Argument
  deriving DecidableEq, Repr

namespace Taken

/-- Nothing. -/
def none : Taken := ⟨Option.none, Option.none, Option.none, Option.none, []⟩

/-- Whether an argument has been taken. -/
def has (taken : Taken) : Argument → Bool
  | .file => taken.file.isSome
  | .uri => taken.uri.isSome
  | .output => taken.output.isSome
  | .maxDepth => taken.maxDepth.isSome
  | flag => flag ∈ taken.flags

/-- Takes the value of an argument. The name of a file may not be empty. -/
def setValue (argument : Argument) (value : String) (taken : Taken) : Except UsageError Taken :=
  match argument with
  | .file =>
    if value.isEmpty then .error (.valueRequired .file) else .ok { taken with file := value }
  | .uri => .ok { taken with uri := value }
  | .output =>
    if value.isEmpty then .error (.valueRequired .output) else .ok { taken with output := value }
  | .maxDepth =>
    match parseLimit value with
    | .ok limit => .ok { taken with maxDepth := limit }
    | .error error => .error (.invalidLimit value error)
  | flag => .error (.unexpectedValue value flag)

/-- Takes an argument with the value that was given for it, if any. -/
def take (argument : Argument) (value : Option String) (taken : Taken) : Except Stop Taken :=
  if argument = .help then .error .help
  else if argument.takesValue then
    match value with
    | Option.none => .error (.usage (.valueRequired argument))
    | some value =>
      if taken.has argument then .error (.usage (.repeated argument))
      else (taken.setValue argument value).mapError .usage
  else if taken.has argument then .error (.usage (.repeated argument))
  else .ok { taken with flags := argument :: taken.flags }

/-- The run that has been asked for. -/
def invocation (taken : Taken) : Except UsageError Invocation :=
  match taken.file with
  | Option.none => .error .missingFile
  | some file => .ok {
      file := file
      uri := taken.uri
      output := taken.output
      options := {
        sourceMap := !taken.has .noSourceMap
        symbolNames := !taken.has .noSymbolNames
        endMappings := !taken.has .noEndMappings
        maxDepth := taken.maxDepth.getD Options.defaultMaxDepth }
      mappings := taken.has .mappings
      verbose := taken.has .verbose }

end Taken

/-! ## Arguments -/

/-- The state of taking arguments. -/
structure Intake where
  taken : Taken
  /-- An argument that has not been looked at, with its value if it has come. -/
  pending : Option (Argument × Option String)
  /-- Whether a file has been given. -/
  fileGiven : Bool
  /-- Whether `--` has been passed. -/
  optionsEnded : Bool
  deriving DecidableEq, Repr

namespace Intake

/-- Before the first argument. -/
def start : Intake := ⟨Taken.none, none, false, false⟩

/-- Looks at the pending argument. -/
def settle (state : Intake) : Except Stop Intake :=
  match state.pending with
  | none => .ok state
  | some (argument, value) => do
    return { state with taken := ← state.taken.take argument value, pending := none }

/-- Takes an argument at once, after the pending one. -/
def takeNow (argument : Argument) (value : Option String) (state : Intake) :
    Except Stop Intake := do
  let state ← state.settle
  return { state with taken := ← state.taken.take argument value }

/-- Leaves an argument pending, after looking at the one before. -/
def takeLater (argument : Argument) (value : Option String) (state : Intake) :
    Except Stop Intake := do
  return { ← state.settle with pending := some (argument, value) }

/-- An option by name, with the value after `=` if there is one. -/
def option (name : String) (value : Option String) (state : Intake) : Except Stop Intake :=
  match Argument.ofName? name, value with
  | none, _ => .error (.usage (.unexpectedArgument ("--" ++ name)))
  | some argument, some value =>
    if argument.takesValue then state.takeNow argument value
    else .error (.usage (.unexpectedValue value argument))
  | some argument, none =>
    if argument.takesValue then state.takeLater argument none else state.takeNow argument none

/-- Options by letters. The rest after a letter with a value is the value. -/
def letters : List Char → Intake → Except Stop Intake
  | [], state => .ok state
  | c :: cs, state =>
    match Argument.ofLetter? c with
    | none => .error (.usage (.unexpectedArgument (String.ofList ['-', c])))
    | some argument =>
      if argument.takesValue then
        match cs with
        | [] => state.takeLater argument none
        | '=' :: value => state.takeNow argument (String.ofList value)
        | value => state.takeNow argument (String.ofList value)
      else do letters cs (← state.takeNow argument none)

/-- A plain argument: the value that is waited for, or the file. -/
def plain (argument : String) (state : Intake) : Except Stop Intake :=
  match state.optionsEnded, state.pending with
  | false, some (awaiting, none) => .ok { state with pending := some (awaiting, some argument) }
  | _, _ =>
    if state.fileGiven then .error (.usage (.unexpectedArgument argument))
    else do return { ← state.takeLater .file (some argument) with fileGiven := true }

/-- One argument. -/
def step (argument : String) (state : Intake) : Except Stop Intake :=
  if state.optionsEnded then state.plain argument
  else
    match argument.toList with
    | ['-', '-'] => .ok { state with optionsEnded := true }
    | '-' :: '-' :: cs =>
      let name := String.ofList (cs.takeWhile (· ≠ '='))
      match cs.dropWhile (· ≠ '=') with
      | [] => state.option name none
      | _ :: value => state.option name (some (String.ofList value))
    | '-' :: c :: cs => state.letters (c :: cs)
    | _ => state.plain argument

/-- All arguments. -/
def steps : List String → Intake → Except Stop Intake
  | [], state => state.settle
  | argument :: arguments, state => do steps arguments (← state.step argument)

end Intake

/-- What some arguments ask for. -/
def parseArguments (arguments : List String) : Except UsageError Request :=
  match Intake.start.steps arguments with
  | .ok state => state.taken.invocation.map .run
  | .error .help => .ok .help
  | .error (.usage error) => .error error

end ArithScript.Command
