import ArithScript.Command.Run

/-!
# The command `arith`

The outer layer: the command on the files and the standard streams of the process. It keeps no log.
-/

set_option autoImplicit false

namespace ArithScript.Command

/-- What the system says about a file. -/
def fileError : IO.Error → FileError
  | .noFileOrDirectory .. => .notFound
  | .inappropriateType _ 20 _ => .notDirectory
  | .inappropriateType _ 21 _ => .isDirectory
  | .invalidArgument _ 36 _ => .nameTooLong
  | error => .other error.toString

/-- What comes of something done with a file. -/
def fileResult {α : Type} (action : IO α) : IO (Except FileError α) := do
  return (← action.toBaseIO).mapError fileError

/-- The process as a system. -/
def process : System IO where
  read path := fileResult do return (← IO.FS.readBinFile path).toList
  write path bytes := fileResult (IO.FS.writeBinFile path bytes.toByteArray)
  print := IO.print
  report := IO.eprint
  startLog _ := pure ()

end ArithScript.Command

open ArithScript.Command in
/-- The command. -/
def main (arguments : List String) : IO UInt32 := do
  return (← perform process arguments).toUInt32
