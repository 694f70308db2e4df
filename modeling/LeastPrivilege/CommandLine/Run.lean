import LeastPrivilege.CommandLine.Arguments
import LeastPrivilege.Drop.Insertion
import LeastPrivilege.Loading
import LeastPrivilege.Profile.Pass
import LeastPrivilege.Report
import LeastPrivilege.SignalHandlers

/-!
# Running a command

What a command line does is a function of the files that it may read. Its outcome says what is to
be printed or written.
-/

namespace LeastPrivilege.CommandLine

/-- What a command line ends in. -/
inductive Outcome where
  /-- Prints a text. -/
  | print (text : String)
  /-- Writes a text to a file. -/
  | write (path text : String)
  /-- Fails with a message. -/
  | fail (message : String)
  /-- Runs no command. -/
  | usage (cause : UsageError)
  deriving DecidableEq, Repr

/-- The name and the number of the program's version. -/
def versionText : String := "privtrim 0.3.1\n"

/-- The message for a file that cannot be written. -/
def writeFailure (path : String) : String :=
  s!"Failed to write module to {path}"

/-- The program that a pass leaves. An error of the pass goes under the message of the command. -/
def rewritten {α : Type} (message : String) (pass : Rewriting α) (p : Program) :
    Except String Program :=
  match pass.run p with
  | .ok _ p => .ok p
  | .error _ _ => .error message

/-- An error that is shown by its own message. -/
def shown {α : Type} : Except LoadError α → Except String α
  | .ok a => .ok a
  | .error e => .error e.message

/-- The outcome that hands a program over, to a file or to the output. -/
def deliver (p : Program) : Option String → Outcome
  | some path => .write path (p.print ++ "\n")
  | none => .print (p.print ++ "\n")

/-- The text of a report in a form. -/
def reportText (r : Report) : Format → String
  | .text => r.render
  | .json => r.print ++ "\n"

/-- The call targets from a file, or those that know nothing. -/
def loadTargets (files : String → FileContent) : Option String → Except LoadError Resolver
  | some path => return (← CallTargets.load path (files path)).resolver
  | none => return Resolver.unknown

namespace Command

/-- Runs a command. The first error in the order of its steps is shown. -/
def run (settings : Settings) (files : String → FileContent) : Command → Except String Outcome
  | analyze program targets format => do
    let p ← shown (Program.load program (files program))
    let direct ← shown ((LocalRequirements.ofProgram settings p).mapError .rejected)
    let resolver ← shown (loadTargets files targets)
    let propagation := Propagation.ofProgram settings p direct resolver
    return .print (reportText (.ofPropagation p.name settings.entry direct propagation) format)
  | insertDrops program plan handlers output => do
    let p ← shown (Program.load program (files program))
    let plan ← shown (DropPlan.load plan (files plan))
    let handlers := (SignalHandlers.ofProgram settings p).insertMany handlers
    let inserter : DropInserter := { settings, isHandler := handlers.contains }
    return deliver (← rewritten "Drop insertion failed" (inserter.rewrite plan) p) output
  | instrument program output => do
    let p ← shown (Program.load program (files program))
    let p ← rewritten "Profiling instrumentation failed" (Instrumentation.rewrite settings) p
    return deliver p output

end Command

/-- The settings from a file, or the defaults. -/
def loadSettings (files : String → FileContent) : Option String → Except LoadError Settings
  | some path => Settings.load path (files path)
  | none => return {}

/-- What a command line does. -/
def run (files : String → FileContent) (words : List String) : Outcome :=
  match Arguments.ofWords words with
  | .error .displayVersion => .print versionText
  | .error e => .usage e
  | .ok arguments =>
    match shown (loadSettings files arguments.settings) with
    | .error message => .fail message
    | .ok settings =>
      match arguments.command.run settings files with
      | .error message => .fail message
      | .ok outcome => outcome

end LeastPrivilege.CommandLine
