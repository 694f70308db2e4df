import Std.Data.ExtTreeMap

/-!
# Nodes

A node is a procedure of the program, or one of two stand-ins for the code outside of it: what the
program may call there, and what may call into the program from there.
-/

namespace LeastPrivilege

/-- A procedure or a stand-in for the code outside the program. -/
inductive Node where
  | procedure (name : String)
  | unknownCallees
  | unknownCallers
  deriving DecidableEq, Repr

namespace Node

/-- The name of a procedure. -/
def procedure? : Node → Option String
  | procedure name => some name
  | _ => none

/-- Procedures come first, then the callees outside, then the callers outside. -/
def rank : Node → Nat
  | procedure _ => 0
  | unknownCallees => 1
  | unknownCallers => 2

/-- The text that shows a node. -/
def render : Node → String
  | procedure name => name
  | unknownCallees => "<unknown-callees>"
  | unknownCallers => "<unknown-callers>"

/-- Nodes are ordered by rank and procedures by name. -/
instance : Ord Node where
  compare := compareLex (compareOn rank) (compareOn render)

instance : Std.TransOrd Node :=
  inferInstanceAs (Std.TransCmp (compareLex (compareOn rank) (compareOn render)))

instance : Std.LawfulEqOrd Node where
  eq_of_compare {a b} h := by
    have hboth := compareLex_eq_eq.1 h
    cases a <;> cases b <;> simp_all [compareOn, rank, render]

end Node

end LeastPrivilege
