import LeastPrivilege.Requirement.Node
import Std.Data.ExtTreeSet

/-!
# Call graphs

Who may call whom. A graph grows by steps that add a procedure, a call, a call through a pointer, an
escape to code outside the program, or an entry from there. Adding the same thing again changes
nothing.
-/

namespace LeastPrivilege

/-- A call that a node may make. A call through a pointer leads outside and carries its site. -/
structure CallEdge where
  callee : Node
  site : Option UInt32 := none
  deriving DecidableEq, Repr

/-- The nodes with the calls that each may make, in the order in which they were added. -/
structure CallGraph where
  edges : Std.ExtTreeMap Node (List CallEdge)

namespace CallGraph

/-- The graph of the two stand-ins alone. -/
def empty : CallGraph :=
  ⟨((∅ : Std.ExtTreeMap Node (List CallEdge)).insert .unknownCallees []).insert .unknownCallers []⟩

instance : EmptyCollection CallGraph := ⟨empty⟩

/-- The nodes in order. -/
def nodes (g : CallGraph) : List Node :=
  g.edges.keys

/-- The calls that a node may make. -/
def callees (g : CallGraph) (n : Node) : List CallEdge :=
  g.edges.getD n []

/-- The number of nodes. -/
def nodeCount (g : CallGraph) : Nat :=
  g.edges.size

/-- The number of calls. -/
def edgeCount (g : CallGraph) : Nat :=
  g.edges.values.flatten.length

/-- Adds a node. -/
def addNode (g : CallGraph) (n : Node) : CallGraph :=
  ⟨g.edges.insertIfNew n []⟩

/-- Adds a call, and its caller if need be. -/
def addEdge (g : CallGraph) (n : Node) (e : CallEdge) : CallGraph :=
  let old := g.callees n
  ⟨g.edges.insert n (if old.contains e then old else old ++ [e])⟩

/-- A step by which a graph grows. -/
inductive Step where
  /-- A procedure exists. -/
  | procedure (name : String)
  /-- A procedure may call another by name. -/
  | call (caller callee : String)
  /-- A procedure makes a call through a pointer. -/
  | indirect (caller : String) (site : UInt32)
  /-- A procedure may call code outside the program. -/
  | escape (caller : String)
  /-- A procedure may be called from outside the program. -/
  | external (callee : String)
  deriving DecidableEq, Repr

/-- Takes one step. -/
def apply (g : CallGraph) : Step → CallGraph
  | .procedure name => g.addNode (.procedure name)
  | .call caller callee =>
    (g.addNode (.procedure callee)).addEdge (.procedure caller) { callee := .procedure callee }
  | .indirect caller site =>
    g.addEdge (.procedure caller) { callee := .unknownCallees, site := some site }
  | .escape caller => g.addEdge (.procedure caller) { callee := .unknownCallees }
  | .external callee =>
    (g.addNode (.procedure callee)).addEdge .unknownCallers { callee := .procedure callee }

/-- Takes steps in order. -/
def applyAll (g : CallGraph) (steps : List Step) : CallGraph :=
  steps.foldl apply g

/-- The graph that steps build from nothing. -/
def build (steps : List Step) : CallGraph :=
  empty.applyAll steps

/-- The procedures that may be called from outside, in the order of the names, except the entry. -/
def externallyCallable (g : CallGraph) (entry : String) : Std.ExtTreeSet String :=
  .ofList (((g.callees .unknownCallers).filterMap (·.callee.procedure?)).filter (· != entry))

end CallGraph

end LeastPrivilege
