import LeastPrivilege.Program.Signature

/-!
# Routines of the counter

The procedures that an instrumented program calls to count its operations. They are known by name,
and each has one signature.
-/

namespace LeastPrivilege

/-- A procedure that an instrumented program calls. -/
inductive Routine where
  /-- Sets the counter up with the capabilities that the program starts with. -/
  | start
  /-- Counts operations. -/
  | count
  /-- Counts operations and takes capabilities away. -/
  | countDrop
  /-- Counts operations after which the identity of the process may differ. -/
  | countIdentity
  /-- Prints what has been counted. -/
  | report
  /-- Announces a fork. -/
  | announceFork
  /-- Registers a procedure to be called at the end of the process. -/
  | atExit
  deriving DecidableEq, Repr

namespace Routine

/-- Every routine once. -/
def all : List Routine :=
  [start, count, countDrop, countIdentity, report, announceFork, atExit]

/-- The name under which programs call a routine. -/
def name : Routine → String
  | start => "initDynCount"
  | count => "addBBLOI"
  | countDrop => "addPrivRmLOI"
  | countIdentity => "addIDChangeLOI"
  | report => "reportPrivDstr"
  | announceFork => "forkHandler"
  | atExit => "atexit"

/-- The names of all routines. -/
def names : List String :=
  all.map name

/-- The routine with a given name. -/
def ofName? (text : String) : Option Routine :=
  all.find? (·.name == text)

/-- The signature of a routine. -/
def signature : Routine → Signature
  | start => { params := [.i64] }
  | count => { params := [.i32] }
  | countDrop => { params := [.i32, .i64] }
  | countIdentity => { params := [.i32] }
  | report => {}
  | announceFork => {}
  | atExit => { params := [.ptr], ret := .i32 }

@[simp] theorem ofName?_name (r : Routine) : ofName? r.name = some r := by
  cases r <;> decide

theorem name_injective {r s : Routine} (h : r.name = s.name) : r = s := by
  have hr := ofName?_name r
  rw [h, ofName?_name] at hr
  exact (Option.some.inj hr).symm

end Routine

end LeastPrivilege
