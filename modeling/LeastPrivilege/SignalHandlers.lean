import LeastPrivilege.Program.Lookup
import LeastPrivilege.Settings.Basic

/-!
# Signal handlers

A procedure becomes a signal handler when its address is the second operand of a call that
registers handlers.
-/

namespace LeastPrivilege

/-- The names of the signal handlers. -/
abbrev SignalHandlers := Std.ExtTreeSet String

namespace SignalHandlers

/-- The handler that a call registers. -/
def ofCall? (settings : Settings) (c : Call) : Option String :=
  if c.calls settings.signalFunction then (c.args[1]?).bind Operand.procedure? else none

/-- The handlers that the definitions of a program register. -/
def ofProgram (settings : Settings) (p : Program) : SignalHandlers :=
  .ofList ((p.definitions.flatMap Procedure.calls).filterMap (ofCall? settings))

end SignalHandlers

end LeastPrivilege
