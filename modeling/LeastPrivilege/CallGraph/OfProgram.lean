import LeastPrivilege.CallGraph.Basic
import LeastPrivilege.Program.Lookup
import LeastPrivilege.Settings.Basic

/-!
# The call graph of a program

Procedures with an intrinsic name are left out, and so are calls of them. A procedure without a
body may call anything outside, and so may one that the program does not know. A definition can be
entered from outside if it is external or if its address is passed on.
-/

namespace LeastPrivilege.CallGraph

/-- The steps for one call. -/
def stepsOfCall (settings : Settings) (p : Program) (caller : String) (c : Call) : List Step :=
  match c.callee with
  | .direct target =>
    if settings.intrinsics.contains target then []
    else
      .call caller target :: if (p.procedure? target).isNone then [.escape target] else []
  | .indirect site => [.indirect caller site]

/-- The steps for one procedure. -/
def stepsOfProcedure (settings : Settings) (p : Program) (addressTaken : Std.ExtTreeSet String)
    (procedure : Procedure) : List Step :=
  let name := procedure.name
  if settings.intrinsics.contains name then []
  else if procedure.isDeclaration then [.procedure name, .escape name]
  else
    let isEntered := procedure.linkage = .external ∨ name ∈ addressTaken
    .procedure name :: (if isEntered then [.external name] else []) ++
      procedure.calls.flatMap (stepsOfCall settings p name)

/-- The steps for a program. -/
def stepsOfProgram (settings : Settings) (p : Program) : List Step :=
  let addressTaken := p.addressTaken
  p.procedures.flatMap (stepsOfProcedure settings p addressTaken)

/-- The call graph of a program. -/
def ofProgram (settings : Settings) (p : Program) : CallGraph :=
  build (stepsOfProgram settings p)

end LeastPrivilege.CallGraph
