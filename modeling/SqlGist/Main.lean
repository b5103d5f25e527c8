import SqlGist.Cli.Answer

/-!
# The Command Line

Reads the arguments, the statement and one environment variable, and prints the
answer. Everything that can be said without doing so is said in `Cli`.

The program ends with code 0 after an answer, 1 after a failure, and 2 if the
command line is refused.

## Main definitions

* `main`: The program.
-/

namespace SqlGist

namespace Cli

/-- What is printed when a command line is refused. -/
def usage : String :=
  "Usage: sqlentity [-p|--pretty] [-v|--verbose] <classify|tag|tree> [SQL | -f <FILE>]"

/-- Why a file could not be read. -/
def readFailure : IO.Error → String
  | .noFileOrDirectory _ _ _ => "No such file or directory (os error 2)"
  | e => toString e

/-- The rest of a stream behind what was read of it. -/
partial def readAll (input : IO.FS.Stream) (front : String) : IO String := do
  let line ← input.getLine
  if line.isEmpty then return front else readAll input (front ++ line)

/-- The statement of a source, or the causes when it cannot be read. -/
def readSource : Source → IO (Except (List String) String)
  | .text sql => return .ok sql
  | .file path => do
    try return .ok (← IO.FS.readFile path)
    catch e => return .error (unreadable path (readFailure e))
  | .standardInput => do
    try return .ok (← readAll (← IO.getStdin) "")
    catch e => return .error ["Failed to read stdin", readFailure e]

/-- Answers an invocation. -/
def run (inv : Invocation) : IO UInt32 := do
  match (← readSource inv.source).bind inv.answer with
  | .ok output =>
    IO.println output
    return 0
  | .error causes =>
    IO.eprintln (report causes)
    return 1

end Cli

end SqlGist

open SqlGist.Cli in
/-- The program. `SQLENTITY_PRETTY` stands in for the flag `--pretty`. -/
def main (args : List String) : IO UInt32 := do
  match Invocation.ofArguments? (← IO.getEnv "SQLENTITY_PRETTY") args with
  | some inv => run inv
  | none =>
    IO.eprintln usage
    return 2
