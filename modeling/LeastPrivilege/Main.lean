import LeastPrivilege.CommandLine.Run

/-!
# The command line program

Reads the files that the arguments name, and prints or writes the outcome.
-/

namespace LeastPrivilege.CommandLine

/-- What is shown to somebody who asks for help. -/
def helpText : String :=
  "Capability requirement analysis and privilege-drop instrumentation\n\n" ++
  "Usage: privtrim [--debug] [--config FILE] <analyze|insert-drops|instrument|help>\n"

/-- What stands at a path. A path that runs through a file, or that no file can have, leads to
nothing. -/
def readContent (path : String) : IO FileContent := do
  try
    return .text (← IO.FS.readFile path)
  catch
    | .noFileOrDirectory .. => return .missing
    | .inappropriateType (some _) .. => return .missing
    | .invalidArgument .. => return .missing
    | _ => return .unreadable

/-- Shows an error and gives the exit code for it. -/
def complain (message : String) : IO UInt32 := do
  IO.eprintln ("Error: " ++ message)
  return 1

/-- Prints or writes an outcome. -/
def perform : Outcome → IO UInt32
  | .print text => do
    IO.print text
    return 0
  | .write path text => do
    try
      IO.FS.writeFile path text
      return 0
    catch _ => complain (writeFailure path)
  | .fail message => complain message
  | .usage cause => do
    if cause = .displayHelp then IO.print helpText else IO.eprint helpText
    return UInt32.ofNat cause.exitCode

end LeastPrivilege.CommandLine

open LeastPrivilege CommandLine in
/-- Runs the command line. -/
def main (words : List String) : IO UInt32 := do
  let paths := match Arguments.ofWords words with
    | .ok arguments => arguments.inputs
    | .error _ => []
  let contents ← paths.mapM fun path => return (path, ← readContent path)
  perform (run (fun path => (contents.lookup path).getD .missing) words)
