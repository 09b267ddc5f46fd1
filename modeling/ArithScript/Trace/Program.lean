import ArithScript.Trace.Writer

/-!
# Writer programs

A writer program is a list of steps on one writer. Nodes may be opened and closed step by step, and
then they may be closed in the wrong order; such a program stops there. The other steps run
callbacks: a program inside a node, one program after another with a text between them, a program
under a condition. A callback may fail. What it does about a failure inside it is its own business,
so a callback is the program that it comes to run, and whether it succeeds in the end.

Running a program logs the writer after each operation, also after those inside a step.
-/

set_option autoImplicit false

namespace ArithScript.Trace

/-- A step of a writer program. -/
inductive Step where
  /-- Writes a text. -/
  | append (text : String)
  /-- Opens a node if there is a region for it. -/
  | openNode (source : Option Region)
  /-- Closes a node, which has to be the innermost open one. -/
  | close (id : Option Nat)
  /-- Runs a program inside a node, if there is a region for it. -/
  | traced (source : Option Region) (steps : List Step)
  /-- Runs callbacks with a separator written between them, up to the first that fails. -/
  | joinEach (separator : String) (callbacks : List (List Step × Bool))
  /-- Runs a callback under a condition. -/
  | runIf (condition : Bool) (steps : List Step) (succeeds : Bool)
  deriving Inhabited

namespace Step

/-- Writes items with a separator between them, failing before the item of the given number. -/
def join (items : List String) (separator : String) (failAt : Option Nat) : Step :=
  .joinEach separator <| items.zipIdx.map fun (item, index) =>
    if failAt = some index then ([], false) else ([.append item], true)

/-- Writes a text under a condition, and fails after it if told to. -/
def appendIf (condition : Bool) (text : String) (fails : Bool) : Step :=
  .runIf condition [.append text] (!fails)

end Step

/-- What a step answers. -/
inductive StepResult where
  | done
  | opened (id : Option Nat)
  /-- Whether the step came to its end. -/
  | completed (success : Bool)
  deriving DecidableEq, Repr

/-- What is logged after an operation. -/
structure LogEntry where
  result : StepResult
  /-- The writer after the operation. -/
  writer : Writer
  /-- Whether the operation is a step of the program, and not a part of such a step. -/
  own : Bool

namespace LogEntry

/-- The position after the text. -/
def position (e : LogEntry) : Position := e.writer.position

/-- The length of the text in bytes. -/
def length (e : LogEntry) : Nat := e.writer.length

end LogEntry

namespace Writer

/-- Opens a node if there is a region for it, and answers with its number. -/
def openIf (source : Option Region) (w : Writer) : Option Nat × Writer :=
  match source with
  | some region => (some w.nodes.size, w.openNode region)
  | none => (none, w)

/-- Closes a node if there is one to close; `none` if it is not the innermost open one. -/
def closeIf? (id : Option Nat) (w : Writer) : Option Writer :=
  match id with
  | some id => w.close? id
  | none => some w

end Writer

/-- The state of a program: the writer, or none after a node was closed out of order, and the log
in reverse. -/
abbrev Progress := Option Writer × List LogEntry

namespace Progress

/-- The state after an operation that cannot go wrong. -/
def after (own : Bool) (log : List LogEntry) (result : StepResult) (w : Writer) : Progress :=
  (some w, ⟨result, w, own⟩ :: log)

/-- The state after an operation that may have closed a node out of order. -/
def afterClose (own : Bool) (log : List LogEntry) : Option Writer → Progress
  | some w => after own log .done w
  | none => (none, log)

/-- Goes on, unless a node was closed out of order. -/
def andThen (p : Progress) (next : Writer → List LogEntry → Progress) : Progress :=
  match p with
  | (some w, log) => next w log
  | (none, log) => (none, log)

end Progress

mutual

/-- Runs one step, either of the program or inside one of its steps. -/
def Step.run : Step → Bool → Writer → List LogEntry → Progress
  | .append text, own, w, log => .after own log .done (w.append text)
  | .openNode source, own, w, log =>
    let (id, w) := w.openIf source
    .after own log (.opened id) w
  | .close id, own, w, log => .afterClose own log (w.closeIf? id)
  | .traced source steps, own, w, log =>
    let (id, w) := w.openIf source
    (Progress.after false log (.opened id) w).andThen fun w log =>
      (Step.runAll steps own w log).andThen fun w log =>
        .afterClose own log (w.closeIf? id)
  | .joinEach separator callbacks, own, w, log => Step.runEach separator callbacks own true w log
  | .runIf condition steps succeeds, own, w, log =>
    if condition then
      (Step.runAll steps false w log).andThen fun w log => .after own log (.completed succeeds) w
    else .after own log (.completed true) w

/-- Runs the steps of a program, up to the first that closes a node out of order. -/
def Step.runAll : List Step → Bool → Writer → List LogEntry → Progress
  | [], _, w, log => (some w, log)
  | step :: steps, own, w, log =>
    (step.run own w log).andThen fun w log => Step.runAll steps own w log

/-- Runs callbacks up to the first that fails, with a separator before each but the first of all. -/
def Step.runEach (separator : String) :
    List (List Step × Bool) → Bool → Bool → Writer → List LogEntry → Progress
  | [], own, _, w, log => .after own log (.completed true) w
  | (steps, succeeds) :: callbacks, own, first, w, log =>
    let begun : Progress :=
      if first then (some w, log) else .after false log .done (w.append separator)
    begun.andThen fun w log =>
      (Step.runAll steps false w log).andThen fun w log =>
        if succeeds then Step.runEach separator callbacks own false w log
        else .after own log (.completed false) w

end

/-- Runs a program on a fresh writer. -/
def runLogged (steps : List Step) : Progress := Step.runAll steps true Writer.start []

/-- Runs a program on a fresh writer, and leaves in the log the steps of the program only. -/
def runProgram (steps : List Step) : Progress :=
  let (w, log) := runLogged steps
  (w, log.filter (·.own))

end ArithScript.Trace
