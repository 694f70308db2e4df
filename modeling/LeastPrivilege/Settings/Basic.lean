import LeastPrivilege.Error
import LeastPrivilege.Profile.Routine
import LeastPrivilege.Program.Basic
import LeastPrivilege.Text.Blank

/-!
# Settings

The names by which the analyses know the entry of a program, the procedures that handle
capabilities, and the procedures that change the process itself.
-/

namespace LeastPrivilege

/-- The names that the analyses look for. -/
structure Settings where
  /-- Where the program starts. -/
  entry : String := "main"
  /-- Puts capabilities to use. -/
  raisePrimitive : String := "priv_raise"
  /-- Puts capabilities aside. -/
  lowerPrimitive : String := "priv_lower"
  /-- Gives capabilities up for good. -/
  removePrimitive : String := "priv_remove"
  /-- Marks a block that only stops the program. -/
  trapIntrinsic : String := "llvm.trap"
  /-- Registers a signal handler. -/
  signalFunction : String := "signal"
  /-- Duplicate the process. -/
  forkFunctions : List String := ["fork"]
  /-- Replace the program of the process. -/
  execFunctions : List String :=
    ["execve", "execl", "execlp", "execle", "execv", "execvp", "execvpe"]
  /-- Change the user or group of the process. -/
  identityFunctions : List String :=
    ["setuid", "setgid", "seteuid", "setegid", "setreuid", "setregid", "setresuid", "setresgid"]
  deriving DecidableEq, Repr

namespace Settings

/-- The three procedures that handle capabilities. -/
def primitives (s : Settings) : List String :=
  [s.raisePrimitive, s.lowerPrimitive, s.removePrimitive]

/-- The names whose calls the call graph leaves out. -/
def intrinsics (s : Settings) : List String :=
  s.primitives ++ s.trapIntrinsic :: Routine.names

/-- The names that have to be given, with their keys. -/
def required (s : Settings) : List (String × String) :=
  [("entry", s.entry), ("raise_primitive", s.raisePrimitive),
    ("lower_primitive", s.lowerPrimitive), ("remove_primitive", s.removePrimitive)]

/-- The procedures that change the process itself. -/
def specials (s : Settings) : List String :=
  s.forkFunctions ++ s.execFunctions ++ s.identityFunctions

/-- The first item that stands in a list a second time. -/
def firstTwice? : List String → Option String
  | [] => none
  | x :: xs => if xs.contains x then some x else firstTwice? xs

/-- Checks that the required names are given, that the primitives differ, and that no procedure that
changes the process is a primitive or a routine of the counter. -/
def check (s : Settings) : Except Error Unit := do
  if let some (key, _) := s.required.find? fun field => Text.trim field.2 == "" then
    throw (.invalidSettings s!"{key} must not be empty")
  if let some name := firstTwice? s.primitives then
    throw (.invalidSettings s!"primitive `{name}` is configured twice")
  if let some name := s.specials.find? fun name =>
      s.primitives.contains name || Routine.names.contains name then
    throw (.invalidSettings s!"`{name}` cannot be both a special call and a primitive")

end Settings

end LeastPrivilege
